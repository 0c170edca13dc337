import Mathlib
import Whittle.Double

/-!
# Rounding

A double is the rounding of a ratio, and of its value alone: two ways to write the same number
give the same double. A finite double is the rounding of its own value. And reading a decimal
rounds the number that it denotes, also where the answer is given without forming that number.
-/

namespace Whittle

/-! ## Ratios -/

/-- The number that a ratio of naturals is. -/
def quotient (r : Nat × Nat) : ℚ := r.1 / r.2

theorem scaleBinary_pos {m : Nat} (k : Int) :
    0 < (scaleBinary m k).2 ∧ (0 < m → 0 < (scaleBinary m k).1) := by
  unfold scaleBinary
  split
  · exact ⟨Nat.one_pos, fun hm => Nat.mul_pos hm (Nat.pow_pos Nat.two_pos)⟩
  · exact ⟨Nat.pow_pos Nat.two_pos, id⟩

theorem scaleDecimal_pos {m : Nat} (k : Int) :
    0 < (scaleDecimal m k).2 ∧ (0 < m → 0 < (scaleDecimal m k).1) := by
  unfold scaleDecimal
  split
  · exact ⟨Nat.one_pos, fun hm => Nat.mul_pos hm (Nat.pow_pos (by decide))⟩
  · exact ⟨Nat.pow_pos (by decide), id⟩

theorem quotient_scaleBinary (m : Nat) (k : Int) : quotient (scaleBinary m k) = m * 2 ^ k := by
  unfold scaleBinary quotient
  split
  · rename_i hk
    obtain ⟨n, rfl⟩ := Int.eq_ofNat_of_zero_le hk
    simp
  · rename_i hk
    obtain ⟨n, rfl⟩ := Int.exists_eq_neg_ofNat (by omega : k ≤ 0)
    simp [div_eq_mul_inv]

theorem quotient_scaleDecimal (m : Nat) (k : Int) :
    quotient (scaleDecimal m k) = m * 10 ^ k := by
  unfold scaleDecimal quotient
  split
  · rename_i hk
    obtain ⟨n, rfl⟩ := Int.eq_ofNat_of_zero_le hk
    simp
  · rename_i hk
    obtain ⟨n, rfl⟩ := Int.exists_eq_neg_ofNat (by omega : k ≤ 0)
    simp [div_eq_mul_inv]

/-- A ratio counted in a power of two. -/
def inUnits (num den : Nat) (u : Int) : Nat × Nat :=
  (num * (scaleBinary den u).2, (scaleBinary den u).1)

theorem quotient_inUnits (num den : Nat) (u : Int) :
    quotient (inUnits num den u) = quotient (num, den) / 2 ^ u := by
  have hpos : ((scaleBinary den u).2 : ℚ) ≠ 0 := by
    exact_mod_cast (@scaleBinary_pos den u).1.ne'
  have hscaled := quotient_scaleBinary den u
  rw [quotient, div_eq_iff hpos] at hscaled
  rw [inUnits, quotient, quotient, hscaled, Nat.cast_mul, mul_div_mul_right _ _ hpos, div_div]

theorem inUnits_pos {num den : Nat} (hden : 0 < den) (u : Int) : 0 < (inUnits num den u).2 :=
  (scaleBinary_pos u).2 hden

theorem div_lt_iff_quotient {n d : Nat} (hd : 0 < d) (c : Nat) :
    n / d < c ↔ quotient (n, d) < c := by
  have hd' : (0 : ℚ) < d := by exact_mod_cast hd
  rw [Nat.div_lt_iff_lt_mul hd, quotient, div_lt_iff₀ hd']
  exact_mod_cast Iff.rfl

/-! ## Rounding to whole numbers -/

theorem roundDiv_mul_mul {c : Nat} (hc : 0 < c) (n d : Nat) :
    roundDiv (c * n) (c * d) = roundDiv n d := by
  have hlt : 2 * (c * (n % d)) < c * d ↔ 2 * (n % d) < d := by
    rw [Nat.mul_left_comm]
    exact Nat.mul_lt_mul_left hc
  have heq : 2 * (c * (n % d)) = c * d ↔ 2 * (n % d) = d := by
    rw [Nat.mul_left_comm]
    exact Nat.mul_right_inj hc.ne'
  simp only [roundDiv, Nat.mul_mod_mul_left, Nat.mul_div_mul_left _ _ hc, hlt, heq]

/-- A ratio is rounded by its value. -/
theorem roundDiv_congr {r s : Nat × Nat} (hr : 0 < r.2) (hs : 0 < s.2)
    (h : quotient r = quotient s) : roundDiv r.1 r.2 = roundDiv s.1 s.2 := by
  have hr' : (r.2 : ℚ) ≠ 0 := by exact_mod_cast hr.ne'
  have hs' : (s.2 : ℚ) ≠ 0 := by exact_mod_cast hs.ne'
  rw [quotient, quotient, div_eq_div_iff hr' hs'] at h
  have h : r.1 * s.2 = s.1 * r.2 := by exact_mod_cast h
  rw [← roundDiv_mul_mul hs r.1 r.2, ← roundDiv_mul_mul hr s.1 s.2, Nat.mul_comm s.2 r.1, h,
    Nat.mul_comm s.1 r.2, Nat.mul_comm s.2 r.2]

/-- A whole number is rounded to itself. -/
theorem roundDiv_eq {r : Nat × Nat} (hr : 0 < r.2) {m : Nat} (h : quotient r = m) :
    roundDiv r.1 r.2 = m := by
  rw [roundDiv_congr (s := (m, 1)) hr Nat.one_pos (by rw [h]; simp [quotient])]
  simp [roundDiv, Nat.mod_one]

/-- A ratio is rounded to one of the two whole numbers next to it. -/
theorem roundDiv_cases (n d : Nat) : roundDiv n d = n / d ∨ roundDiv n d = n / d + 1 := by
  simp only [roundDiv]
  split
  · exact .inl rfl
  · split
    · rcases Nat.mod_two_eq_zero_or_one (n / d) with h | h <;> simp [h]
    · exact .inr rfl

theorem le_roundDiv {r : Nat × Nat} (hr : 0 < r.2) {m : Nat} (h : (m : ℚ) ≤ quotient r) :
    m ≤ roundDiv r.1 r.2 := by
  have hle : m ≤ r.1 / r.2 := by
    rw [← not_lt, div_lt_iff_quotient hr, not_lt]
    exact h
  rcases roundDiv_cases r.1 r.2 with heq | heq <;> omega

theorem roundDiv_eq_zero {r : Nat × Nat} (hr : 0 < r.2) (h : quotient r < 1 / 2) :
    roundDiv r.1 r.2 = 0 := by
  have hr' : (0 : ℚ) < r.2 := by exact_mod_cast hr
  rw [quotient, div_lt_div_iff₀ hr' two_pos, one_mul] at h
  have h : r.1 * 2 < r.2 := by exact_mod_cast h
  have hdiv : r.1 / r.2 = 0 := Nat.div_eq_of_lt (by omega)
  have hmod : r.1 % r.2 = r.1 := Nat.mod_eq_of_lt (by omega)
  simp only [roundDiv, hdiv, hmod]
  rw [if_pos (by omega)]

namespace Double

/-! ## The unit of a number -/

/-- The power of two in whose multiples a number is rounded: the number has at most fifty-three
bits before the unit, and exactly as many unless the unit is the least one. -/
structure HasUnit (q : ℚ) (u : Int) : Prop where
  least : -1074 ≤ u
  below : q < 2 ^ (u + 53)
  above : u = -1074 ∨ 2 ^ (u + 52) ≤ q

theorem HasUnit.le {q : ℚ} {u v : Int} (hu : HasUnit q u) (hv : HasUnit q v) : u ≤ v := by
  rcases hu.above with rfl | habove
  · exact hv.least
  · have hlt : (2 : ℚ) ^ (u + 52) < 2 ^ (v + 53) := habove.trans_lt hv.below
    have := (zpow_lt_zpow_iff_right₀ one_lt_two).1 hlt
    omega

theorem HasUnit.unique {q : ℚ} {u v : Int} (hu : HasUnit q u) (hv : HasUnit q v) : u = v :=
  le_antisymm (hu.le hv) (hv.le hu)

/-- The lengths of its two naturals bound a ratio to within two powers of two. -/
theorem quotient_bounds {num den : Nat} (hnum : 0 < num) (hden : 0 < den) :
    (2 : ℚ) ^ ((num.log2 : Int) - den.log2 - 1) ≤ quotient (num, den) ∧
      quotient (num, den) < 2 ^ ((num.log2 : Int) - den.log2 + 1) := by
  have hden' : (0 : ℚ) < den := by exact_mod_cast hden
  have hnum_le : (2 : ℚ) ^ num.log2 ≤ num := by exact_mod_cast Nat.log2_self_le hnum.ne'
  have hnum_lt : (num : ℚ) < 2 ^ (num.log2 + 1) := by exact_mod_cast Nat.lt_log2_self
  have hden_le : (2 : ℚ) ^ den.log2 ≤ den := by exact_mod_cast Nat.log2_self_le hden.ne'
  have hden_lt : (den : ℚ) < 2 ^ (den.log2 + 1) := by exact_mod_cast Nat.lt_log2_self
  constructor
  · rw [quotient, le_div_iff₀ hden']
    calc (2 : ℚ) ^ ((num.log2 : Int) - den.log2 - 1) * den
        ≤ 2 ^ ((num.log2 : Int) - den.log2 - 1) * 2 ^ (den.log2 + 1) := by gcongr
      _ = 2 ^ num.log2 := by
          rw [← zpow_natCast, ← zpow_natCast, ← zpow_add₀ two_ne_zero]
          congr 1
          push_cast
          ring
      _ ≤ num := hnum_le
  · rw [quotient, div_lt_iff₀ hden']
    calc (num : ℚ) < 2 ^ (num.log2 + 1) := hnum_lt
      _ = 2 ^ ((num.log2 : Int) - den.log2 + 1) * 2 ^ den.log2 := by
          rw [← zpow_natCast, ← zpow_natCast, ← zpow_add₀ two_ne_zero]
          congr 1
          push_cast
          ring
      _ ≤ 2 ^ ((num.log2 : Int) - den.log2 + 1) * den := by gcongr

/-- Whether a ratio has at most fifty-three bits before a unit. -/
theorem div_inUnits_lt_iff {num den : Nat} (hden : 0 < den) (u : Int) :
    (inUnits num den u).1 / (inUnits num den u).2 < Nat.pow 2 53 ↔
      quotient (num, den) < 2 ^ (u + 53) := by
  have hpos : (0 : ℚ) < 2 ^ u := zpow_pos two_pos u
  rw [div_lt_iff_quotient (inUnits_pos hden u), quotient_inUnits, div_lt_iff₀ hpos, add_comm,
    zpow_add₀ two_ne_zero]
  norm_num

theorem hasUnit_unitExponent {num den : Nat} (hnum : 0 < num) (hden : 0 < den) :
    HasUnit (quotient (num, den)) (unitExponent num den) := by
  obtain ⟨hlow, hhigh⟩ := quotient_bounds hnum hden
  have hmono : ∀ {a b : Int}, a ≤ b → (2 : ℚ) ^ a ≤ 2 ^ b :=
    fun h => zpow_le_zpow_right₀ one_le_two h
  simp only [unitExponent]
  generalize hrough : max ((num.log2 : Int) - den.log2 - 53) (-1074) = rough
  have hiff := @div_inUnits_lt_iff num den hden rough
  split
  · rename_i hlt
    refine ⟨by omega, hiff.1 hlt, ?_⟩
    by_cases hleast : rough = -1074
    · exact .inl hleast
    · exact .inr ((hmono (by omega)).trans hlow)
  · rename_i hge
    refine ⟨by omega, hhigh.trans_le (hmono (by omega)), .inr ?_⟩
    rw [show rough + 1 + 52 = rough + 53 by ring]
    exact not_lt.1 fun hlt => hge (hiff.2 hlt)

/-! ## Rounding to doubles -/

/-- The bits of the double that a number is rounded to, in terms of its unit. -/
theorem ofRatio_eq {negative : Bool} {num den : Nat} (hnum : 0 < num) (hden : 0 < den) {u : Int}
    (hu : HasUnit (quotient (num, den)) u) : ofRatio negative num den = ofBits negative
      (min ((u + 1074).toNat * Nat.pow 2 52
        + roundDiv (inUnits num den u).1 (inUnits num den u).2) infinityBits) := by
  rw [ofRatio, if_neg hnum.ne', (hasUnit_unitExponent hnum hden).unique hu]
  rfl

theorem quotient_eq_zero_iff {r : Nat × Nat} (hr : 0 < r.2) : quotient r = 0 ↔ r.1 = 0 := by
  have hr' : (r.2 : ℚ) ≠ 0 := by exact_mod_cast hr.ne'
  rw [quotient, div_eq_zero_iff, or_iff_left hr', Nat.cast_eq_zero]

/-- A double is the rounding of a value. -/
theorem ofRatio_congr (negative : Bool) {r s : Nat × Nat} (hr : 0 < r.2) (hs : 0 < s.2)
    (h : quotient r = quotient s) : ofRatio negative r.1 r.2 = ofRatio negative s.1 s.2 := by
  obtain hzero | hpos := Nat.eq_zero_or_pos r.1
  · have hzero' : s.1 = 0 := by
      rw [← quotient_eq_zero_iff hs, ← h, quotient_eq_zero_iff hr, hzero]
    rw [ofRatio, ofRatio, if_pos hzero, if_pos hzero']
  · have hpos' : 0 < s.1 := by
      refine Nat.pos_of_ne_zero fun hzero => ?_
      rw [← quotient_eq_zero_iff hs, ← h, quotient_eq_zero_iff hr] at hzero
      omega
    have hu := hasUnit_unitExponent hpos hr
    have hu' : HasUnit (quotient (s.1, s.2)) (unitExponent r.1 r.2) := h ▸ hu
    have hunits : quotient (inUnits r.1 r.2 (unitExponent r.1 r.2))
        = quotient (inUnits s.1 s.2 (unitExponent r.1 r.2)) := by
      rw [quotient_inUnits, quotient_inUnits]
      exact congrArg (· / _) h
    rw [ofRatio_eq hpos hr hu, ofRatio_eq hpos' hs hu',
      roundDiv_congr (inUnits_pos hr _) (inUnits_pos hs _) hunits]

/-- A number that is too large is rounded to an infinity. -/
theorem ofRatio_eq_infinity (negative : Bool) {num den : Nat} (hnum : 0 < num) (hden : 0 < den)
    (h : 2 ^ (1024 : Int) ≤ quotient (num, den)) :
    ofRatio negative num den = infinity negative := by
  have hu := hasUnit_unitExponent hnum hden
  rw [ofRatio_eq hnum hden hu]
  generalize unitExponent num den = u at hu
  have hlarge : 972 ≤ u := by
    have := (zpow_lt_zpow_iff_right₀ (one_lt_two (α := ℚ))).1 (h.trans_lt hu.below)
    omega
  have habove : 2 ^ (u + 52) ≤ quotient (num, den) := hu.above.resolve_left (by omega)
  have hround := le_roundDiv (@inUnits_pos num den hden u) (m := Nat.pow 2 52) (by
    rw [quotient_inUnits, le_div_iff₀ (zpow_pos two_pos u)]
    rw [add_comm, zpow_add₀ two_ne_zero] at habove
    exact_mod_cast habove)
  have hmul : 2046 * Nat.pow 2 52 ≤ (u + 1074).toNat * Nat.pow 2 52 :=
    Nat.mul_le_mul_right _ (by omega)
  have hle : infinityBits ≤ (u + 1074).toNat * Nat.pow 2 52
      + roundDiv (inUnits num den u).1 (inUnits num den u).2 := by
    rw [show infinityBits = 2046 * Nat.pow 2 52 + Nat.pow 2 52 from rfl]
    exact Nat.add_le_add hmul hround
  rw [Nat.min_eq_right hle]
  rfl

/-- A number that is too small is rounded to a zero. -/
theorem ofRatio_eq_zero (negative : Bool) {num den : Nat} (hnum : 0 < num) (hden : 0 < den)
    (h : quotient (num, den) < 2 ^ (-1075 : Int)) : ofRatio negative num den = zero negative := by
  have hu : HasUnit (quotient (num, den)) (-1074) :=
    ⟨le_refl _, h.trans (zpow_lt_zpow_right₀ one_lt_two (by norm_num)), .inl rfl⟩
  have hround := roundDiv_eq_zero (@inUnits_pos num den hden (-1074)) (by
    rw [quotient_inUnits, div_lt_iff₀ (zpow_pos two_pos _)]
    refine h.trans_eq ?_
    rw [show (-1075 : Int) = -1 + -1074 by norm_num, zpow_add₀ two_ne_zero]
    norm_num)
  rw [ofRatio_eq hnum hden hu, hround]
  rfl

/-! ## Doubles from their bits -/

theorem ofBits_self (x : Double) : ofBits x.isNegative x.magnitudeBits = x := by
  have hlt := x.bits.toNat_lt
  have hdiv := Nat.div_add_mod x.bits.toNat (Nat.pow 2 63)
  have hquot : x.bits.toNat / Nat.pow 2 63 < 2 := Nat.div_lt_of_lt_mul (by simpa using hlt)
  have hbits : (if x.isNegative then Nat.pow 2 63 + x.magnitudeBits else x.magnitudeBits)
      = x.bits.toNat := by
    simp only [isNegative, magnitudeBits, beq_iff_eq]
    generalize x.bits.toNat / Nat.pow 2 63 = q at hdiv hquot ⊢
    split
    · rename_i h
      rw [h, Nat.mul_one] at hdiv
      exact hdiv
    · rw [show q = 0 by omega, Nat.mul_zero, Nat.zero_add] at hdiv
      exact hdiv
  rw [ofBits, hbits]
  cases x
  simp

theorem eq_zero_of_isZero {x : Double} (h : x.isZero = true) : x = zero x.isNegative := by
  rw [isZero, beq_iff_eq] at h
  rw [zero, ← h, ofBits_self]

/-- The significand of a double and its unit. -/
theorem significand_bounds (x : Double) : x.significand.1 < Nat.pow 2 53 ∧
    -1074 ≤ x.significand.2 ∧ (x.significand.2 = -1074 ∨ Nat.pow 2 52 ≤ x.significand.1) ∧
    (x.significand.2 + 1074).toNat * Nat.pow 2 52 + x.significand.1 = x.magnitudeBits := by
  have hdiv := Nat.div_add_mod x.magnitudeBits (Nat.pow 2 52)
  have hmod := Nat.mod_lt x.magnitudeBits (show 0 < Nat.pow 2 52 by decide)
  simp only [significand]
  generalize x.magnitudeBits / Nat.pow 2 52 = e at hdiv ⊢
  generalize x.magnitudeBits % Nat.pow 2 52 = m at hdiv hmod ⊢
  rw [show Nat.pow 2 52 = 4503599627370496 from rfl] at hdiv hmod ⊢
  rw [show Nat.pow 2 53 = 9007199254740992 from rfl]
  split
  · rename_i he
    subst he
    refine ⟨by simp only; omega, le_refl _, .inl rfl, ?_⟩
    rw [Nat.mul_zero, Nat.zero_add] at hdiv
    rw [show (-1074 + 1074 : Int).toNat = 0 from rfl, Nat.zero_mul, Nat.zero_add]
    exact hdiv
  · simp only
    obtain ⟨n, rfl⟩ : ∃ n, e = n + 1 := ⟨e - 1, by omega⟩
    rw [show ((n + 1 : Nat) : Int) - 1075 + 1074 = n by push_cast; ring, Int.toNat_natCast]
    omega

theorem significand_pos {x : Double} (hzero : x.isZero = false) : 0 < x.significand.1 := by
  obtain ⟨-, -, habove, hbits⟩ := x.significand_bounds
  refine Nat.pos_of_ne_zero fun hm => ?_
  rw [hm] at habove hbits
  rcases habove with hleast | habove
  · rw [hleast] at hbits
    rw [isZero, ← hbits] at hzero
    cases hzero
  · exact absurd habove (by decide)

theorem ratio_pos {x : Double} (hzero : x.isZero = false) : 0 < x.ratio.1 ∧ 0 < x.ratio.2 := by
  obtain ⟨hden, hnum⟩ := @scaleBinary_pos x.significand.1 x.significand.2
  exact ⟨hnum (significand_pos hzero), hden⟩

theorem quotient_ratio (x : Double) :
    quotient x.ratio = x.significand.1 * 2 ^ x.significand.2 := quotient_scaleBinary ..

/-- The value of a double has the double's own unit. -/
theorem hasUnit_ratio (x : Double) : HasUnit (quotient x.ratio) x.significand.2 := by
  obtain ⟨hlt, hleast, habove, -⟩ := x.significand_bounds
  rw [quotient_ratio]
  generalize x.significand.1 = m at hlt habove
  generalize x.significand.2 = u at hleast habove
  have hpos : (0 : ℚ) < 2 ^ u := zpow_pos two_pos u
  refine ⟨hleast, ?_, habove.imp_right fun hm => ?_⟩
  · have hm : (m : ℚ) < 2 ^ 53 := by exact_mod_cast hlt
    rw [add_comm, zpow_add₀ two_ne_zero]
    exact mul_lt_mul_of_pos_right hm hpos
  · have hm : (2 : ℚ) ^ 52 ≤ m := by exact_mod_cast hm
    rw [add_comm, zpow_add₀ two_ne_zero]
    exact mul_le_mul_of_nonneg_right hm hpos.le

/-- A finite double other than zero is the rounding of its value. -/
theorem ofRatio_ratio {x : Double} (hfinite : x.isFinite = true) (hzero : x.isZero = false) :
    ofRatio x.isNegative x.ratio.1 x.ratio.2 = x := by
  obtain ⟨hnum, hden⟩ := ratio_pos hzero
  obtain ⟨-, -, -, hbits⟩ := x.significand_bounds
  have hround : roundDiv (inUnits x.ratio.1 x.ratio.2 x.significand.2).1
      (inUnits x.ratio.1 x.ratio.2 x.significand.2).2 = x.significand.1 := by
    refine roundDiv_eq (inUnits_pos hden _) ?_
    rw [quotient_inUnits, quotient_ratio, mul_div_cancel_right₀ _ (zpow_ne_zero _ two_ne_zero)]
  have hlt : x.magnitudeBits < infinityBits := of_decide_eq_true hfinite
  rw [ofRatio_eq hnum hden (hasUnit_ratio x), hround, hbits, Nat.min_eq_left hlt.le, ofBits_self]

/-! ## Doubles from decimals -/

/-- A decimal is read as the rounding of the number that it denotes. -/
theorem ofDecimal_eq (negative : Bool) {digits : Nat} (hdigits : 0 < digits) (e : Int) :
    ofDecimal negative digits e
      = ofRatio negative (scaleDecimal digits e).1 (scaleDecimal digits e).2 := by
  obtain ⟨hden, hnum⟩ := @scaleDecimal_pos digits e
  have hvalue := quotient_scaleDecimal digits e
  have hone : (1 : ℚ) ≤ digits := by exact_mod_cast hdigits
  rw [ofDecimal, if_neg hdigits.ne']
  split
  · rename_i hlarge
    refine (ofRatio_eq_infinity negative (hnum hdigits) hden ?_).symm
    have hten : (2 : ℚ) ^ (3 * e) ≤ 10 ^ e := by
      obtain ⟨n, rfl⟩ := Int.eq_ofNat_of_zero_le (by omega : 0 ≤ e)
      rw [zpow_mul, zpow_natCast, zpow_natCast]
      exact pow_le_pow_left₀ (by positivity) (by norm_num) n
    calc (2 : ℚ) ^ (1024 : Int) ≤ 2 ^ (3 * e) := zpow_le_zpow_right₀ one_le_two (by omega)
      _ ≤ 10 ^ e := hten
      _ ≤ digits * 10 ^ e := le_mul_of_one_le_left (zpow_nonneg (by norm_num) e) hone
      _ = _ := hvalue.symm
  · split
    · rename_i hsmall
      refine (ofRatio_eq_zero negative (hnum hdigits) hden ?_).symm
      have hlog : (digits : ℚ) < 2 ^ ((digits.log2 : Int) + 1) := by
        exact_mod_cast @Nat.lt_log2_self digits
      have hten : (10 : ℚ) ^ e ≤ 2 ^ (3 * e) := by
        obtain ⟨n, rfl⟩ := Int.exists_eq_neg_ofNat (by omega : e ≤ 0)
        rw [zpow_mul, zpow_neg, zpow_neg, zpow_natCast, zpow_natCast]
        refine inv_anti₀ (by positivity) (pow_le_pow_left₀ (by positivity) (by norm_num) n)
      calc quotient (scaleDecimal digits e) = digits * 10 ^ e := hvalue
        _ ≤ digits * 2 ^ (3 * e) := by gcongr
        _ < 2 ^ ((digits.log2 : Int) + 1) * 2 ^ (3 * e) := by gcongr
        _ = 2 ^ ((digits.log2 : Int) + 1 + 3 * e) := (zpow_add₀ two_ne_zero ..).symm
        _ ≤ 2 ^ (-1075 : Int) := zpow_le_zpow_right₀ one_le_two (by omega)
    · rfl

/-- Decimals that denote the same number are read as the same double. -/
theorem ofDecimal_congr (negative : Bool) {m n : Nat} {e f : Int}
    (h : (m : ℚ) * 10 ^ e = n * 10 ^ f) :
    ofDecimal negative m e = ofDecimal negative n f := by
  have hpow : ∀ k : Int, (10 : ℚ) ^ k ≠ 0 := fun k => zpow_ne_zero k (by norm_num)
  obtain rfl | hm := Nat.eq_zero_or_pos m
  · have hn : n = 0 := by simpa [hpow] using h.symm
    rw [hn, ofDecimal, ofDecimal, if_pos rfl, if_pos rfl]
  · have hn : 0 < n := by
      refine Nat.pos_of_ne_zero ?_
      rintro rfl
      simp [hpow, hm.ne'] at h
    rw [ofDecimal_eq negative hm, ofDecimal_eq negative hn]
    refine ofRatio_congr negative (scaleDecimal_pos e).1 (scaleDecimal_pos f).1 ?_
    rw [quotient_scaleDecimal, quotient_scaleDecimal, h]

end Double

end Whittle
