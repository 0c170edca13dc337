import Whittle.Proofs.Double.Rounding

/-!
# Bounds

A ratio of moderate size is rounded to a finite double of about that size. So are a double from
zero up to one, multiplied by ten, and what that is rounded to at two decimal places.
-/

namespace Whittle.Double

/-! ## Bits -/

theorem toNat_ofBits {negative : Bool} {b : Nat} (hb : b < Nat.pow 2 63) :
    (ofBits negative b).bits.toNat = if negative then Nat.pow 2 63 + b else b := by
  rw [show Nat.pow 2 63 = 9223372036854775808 from rfl] at hb ⊢
  cases negative with
  | false =>
    show (b.toUInt64).toNat = b
    simp
    omega
  | true =>
    show ((9223372036854775808 + b).toUInt64).toNat = 9223372036854775808 + b
    simp
    omega

theorem magnitudeBits_ofBits {negative : Bool} {b : Nat} (hb : b < Nat.pow 2 63) :
    (ofBits negative b).magnitudeBits = b := by
  rw [magnitudeBits, toNat_ofBits hb]
  cases negative with
  | false => exact Nat.mod_eq_of_lt hb
  | true =>
    show (Nat.pow 2 63 + b) % Nat.pow 2 63 = b
    rw [Nat.add_mod_left, Nat.mod_eq_of_lt hb]

theorem isNegative_ofBits {negative : Bool} {b : Nat} (hb : b < Nat.pow 2 63) :
    (ofBits negative b).isNegative = negative := by
  rw [isNegative, toNat_ofBits hb]
  rw [show Nat.pow 2 63 = 9223372036854775808 from rfl] at hb ⊢
  cases negative with
  | false => simp; omega
  | true => simp; omega

/-- A ratio is rounded to a double of the sign that is given. -/
theorem isNegative_ofRatio (negative : Bool) (num den : Nat) :
    (ofRatio negative num den).isNegative = negative := by
  rw [ofRatio]
  split
  · exact isNegative_ofBits (by decide)
  · exact isNegative_ofBits ((Nat.min_le_right _ _).trans_lt (by decide))

/-! ## Sizes -/

/-- The most bits that a number with the unit is rounded to. -/
def bitsBelow (u : Int) : Nat := (u + 1074).toNat * Nat.pow 2 52 + Nat.pow 2 53

/-- A number below a power of two is rounded to a double with not more bits than that. -/
theorem magnitudeBits_ofRatio_le {negative : Bool} {num den : Nat} (hden : 0 < den) {u : Int}
    (hu : -1074 ≤ u) (h : quotient (num, den) < 2 ^ (u + 53)) :
    (ofRatio negative num den).magnitudeBits ≤ bitsBelow u := by
  obtain hzero | hnum := Nat.eq_zero_or_pos num
  · rw [ofRatio, if_pos hzero, zero, magnitudeBits_ofBits (by decide)]
    exact Nat.zero_le _
  · have hunit := hasUnit_unitExponent hnum hden
    rw [ofRatio_eq hnum hden hunit,
      magnitudeBits_ofBits ((Nat.min_le_right _ _).trans_lt (by decide))]
    generalize unitExponent num den = w at hunit
    have hle : w ≤ u := by
      rcases hunit.above with hleast | habove
      · omega
      · have := (zpow_lt_zpow_iff_right₀ (one_lt_two (α := ℚ))).1 (habove.trans_lt h)
        omega
    have hdiv : (inUnits num den w).1 / (inUnits num den w).2 < Nat.pow 2 53 :=
      (div_inUnits_lt_iff hden w).2 hunit.below
    have hround : roundDiv (inUnits num den w).1 (inUnits num den w).2 ≤ Nat.pow 2 53 := by
      rcases roundDiv_cases (inUnits num den w).1 (inUnits num den w).2 with heq | heq <;> omega
    have hmul : (w + 1074).toNat * Nat.pow 2 52 ≤ (u + 1074).toNat * Nat.pow 2 52 :=
      Nat.mul_le_mul_right _ (by omega)
    exact (Nat.min_le_left _ _).trans (Nat.add_le_add hmul hround)

/-- A double with not more bits than that is below four times the power of two. -/
theorem quotient_ratio_lt {x : Double} {u : Int} (hu : -1074 ≤ u)
    (h : x.magnitudeBits ≤ bitsBelow u) : quotient x.ratio < 2 ^ (u + 55) := by
  obtain ⟨-, hleast, -, hbits⟩ := x.significand_bounds
  have hle : x.significand.2 ≤ u + 2 := by
    rw [← hbits, bitsBelow, show Nat.pow 2 53 = 2 * Nat.pow 2 52 from rfl] at h
    have hmul : (x.significand.2 + 1074).toNat * Nat.pow 2 52
        ≤ ((u + 1074).toNat + 2) * Nat.pow 2 52 := by
      rw [Nat.add_mul]
      exact (Nat.le_add_right _ _).trans h
    have := Nat.le_of_mul_le_mul_right hmul (by decide)
    omega
  have hbelow := (hasUnit_ratio x).below
  exact hbelow.trans_le (zpow_le_zpow_right₀ one_le_two (by omega))

theorem ratio_snd_pos (x : Double) : 0 < x.ratio.2 := (scaleBinary_pos x.significand.2).1

/-! ## Doubles from zero up to one -/

/-- The double is at least zero and less than one. -/
def IsFraction (x : Double) : Prop := x.belowZero = false ∧ x.less (ofNat 1) = true

namespace IsFraction

variable {x : Double}

theorem isFinite (h : IsFraction x) : x.isFinite = true := by
  by_contra hnot
  have hnone : x.signedRatio? = none := by rw [signedRatio?, if_neg hnot]
  have hless := h.2
  rw [less, hnone] at hless
  cases hless

/-- Only zero may have a negative sign. -/
theorem eq_zero (h : IsFraction x) (hnegative : x.isNegative = true) : x = zero true := by
  have hfinite : x.magnitudeBits < infinityBits := of_decide_eq_true h.isFinite
  have hnan : x.isNaN = false := decide_eq_false (by omega)
  have hzero := h.1
  rw [belowZero, hnegative, hnan] at hzero
  have hzero : x.isZero = true := by simpa using hzero
  rw [eq_zero_of_isZero hzero, hnegative]

theorem quotient_lt (h : IsFraction x) (hnegative : x.isNegative = false) :
    quotient x.ratio < 1 := by
  have hone : (ofNat 1).signedRatio? = some ((4503599627370496 : Int), 4503599627370496) := by
    decide
  have hless := h.2
  rw [less, signedRatio?, if_pos h.isFinite, hone, hnegative] at hless
  have hlt : x.ratio.1 < x.ratio.2 := by
    simp at hless
    omega
  have hpos : (0 : ℚ) < x.ratio.2 := by exact_mod_cast x.ratio_snd_pos
  rw [quotient, div_lt_one hpos]
  exact_mod_cast hlt

/-- Ten times the double is below sixteen, and rounding may make it four times as large. -/
theorem scale_bounds (h : IsFraction x) (hnegative : x.isNegative = false) :
    (x.scale 10).isFinite = true ∧ (x.scale 10).isNegative = false ∧
      quotient (x.scale 10).ratio < 64 := by
  have hscale : x.scale 10 = ofRatio false (x.ratio.1 * 10) x.ratio.2 := by
    rw [scale, if_pos h.isFinite, hnegative]
  have hten : quotient (x.ratio.1 * 10, x.ratio.2) < 2 ^ ((-49 : Int) + 53) := by
    have hlt := h.quotient_lt hnegative
    have heq : quotient (x.ratio.1 * 10, x.ratio.2) = 10 * quotient x.ratio := by
      simp only [quotient]
      push_cast
      ring
    rw [heq]
    norm_num
    linarith
  have hbits : (x.scale 10).magnitudeBits ≤ bitsBelow (-49) := by
    rw [hscale]
    exact magnitudeBits_ofRatio_le x.ratio_snd_pos (by decide) hten
  constructor
  · exact decide_eq_true (hbits.trans_lt (by decide))
  · constructor
    · rw [hscale, isNegative_ofRatio]
    · have hlt := quotient_ratio_lt (by decide) hbits
      norm_num at hlt
      exact hlt

/-- At two decimal places, that is rounded to a finite double that is not below zero. -/
theorem roundPlaces_scale (h : IsFraction x) :
    ((x.scale 10).roundPlaces 2).isFinite = true ∧
      ((x.scale 10).roundPlaces 2).belowZero = false := by
  cases hnegative : x.isNegative with
  | true =>
    -- the negative zero stays what it is
    rw [h.eq_zero hnegative]
    decide +kernel
  | false =>
    obtain ⟨hfinite, hsign, hlt⟩ := h.scale_bounds hnegative
    generalize x.scale 10 = y at hfinite hsign hlt
    have hround : y.roundPlaces 2 = ofRatio false (roundDiv (y.ratio.1 * 100) y.ratio.2) 100 := by
      rw [roundPlaces, if_pos hfinite, hsign]
    have hdiv : y.ratio.1 * 100 / y.ratio.2 < 6400 := by
      rw [div_lt_iff_quotient y.ratio_snd_pos]
      have heq : quotient (y.ratio.1 * 100, y.ratio.2) = 100 * quotient y.ratio := by
        simp only [quotient]
        push_cast
        ring
      rw [heq]
      norm_num
      linarith
    have hle : roundDiv (y.ratio.1 * 100) y.ratio.2 ≤ 6400 := by
      rcases roundDiv_cases (y.ratio.1 * 100) y.ratio.2 with hcase | hcase <;> omega
    have hquotient : quotient (roundDiv (y.ratio.1 * 100) y.ratio.2, 100)
        < 2 ^ ((-46 : Int) + 53) := by
      have hcast : (roundDiv (y.ratio.1 * 100) y.ratio.2 : ℚ) ≤ 6400 := by exact_mod_cast hle
      rw [quotient]
      norm_num
      linarith
    have hbits : (y.roundPlaces 2).magnitudeBits ≤ bitsBelow (-46) := by
      rw [hround]
      exact magnitudeBits_ofRatio_le (by decide) (by decide) hquotient
    constructor
    · exact decide_eq_true (hbits.trans_lt (by decide))
    · have hpositive : (y.roundPlaces 2).isNegative = false := by
        rw [hround, isNegative_ofRatio]
      rw [belowZero, hpositive, Bool.false_and, Bool.false_and]

end IsFraction

end Whittle.Double
