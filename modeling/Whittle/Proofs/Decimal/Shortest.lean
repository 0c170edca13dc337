import Whittle.Decimal.Shortest
import Whittle.Proofs.Double.Rounding

/-!
# Decimals that read back

The decimal that a finite double is written by is read as that double. On each grid this was
tested of the points that may be chosen; the exact value, which stands in if all grids fail, is
read back because a double is the rounding of its own value.
-/

namespace Whittle.Decimal

open Double

variable {x : Double}

/-- The decimal is read as the double. -/
theorem Scaled.readsAs_iff {d : Scaled} :
    d.readsAs x = true ↔ ofDecimal x.isNegative d.digits d.exponent = x := by
  rw [Scaled.readsAs, beq_iff_eq]

theorem readsAs_of_onGrid? {unit : Int} {d : Scaled} (h : onGrid? x unit = some d) :
    d.readsAs x = true := by
  simp only [onGrid?] at h
  split at h
  · rename_i hbelow habove
    cases h
    -- the nearer of the two neighbours is one of them
    rcases roundDiv_cases (x.ratio.1 * (scaleDecimal 1 unit).2)
      (x.ratio.2 * (scaleDecimal 1 unit).1) with hround | hround
    · rwa [hround]
    · rwa [hround]
  · cases h
    assumption
  · cases h
    assumption
  · cases h

/-- A binary fraction is written in full as a decimal fraction. -/
theorem quotient_exact (x : Double) :
    ((exact x).digits : ℚ) * 10 ^ (exact x).exponent = quotient x.ratio := by
  rw [quotient_ratio]
  simp only [exact]
  generalize x.significand.1 = m
  generalize x.significand.2 = k
  split
  · rename_i hk
    obtain ⟨n, rfl⟩ := Int.eq_ofNat_of_zero_le hk
    simp
  · rename_i hk
    obtain ⟨n, rfl⟩ := Int.exists_eq_neg_ofNat (by omega : k ≤ 0)
    have h10 : (10 : ℚ) = 5 * 2 := by norm_num
    simp only [neg_neg, Int.toNat_natCast, Nat.pow_eq, Nat.cast_mul, Nat.cast_pow, zpow_neg,
      zpow_natCast, h10, mul_pow, Nat.cast_ofNat]
    field_simp

variable (hfinite : x.isFinite = true) (hzero : x.isZero = false)

include hfinite hzero

theorem readsAs_exact : (exact x).readsAs x = true := by
  obtain ⟨hnum, hden⟩ := ratio_pos hzero
  have hvalue := quotient_exact x
  have hdigits : 0 < (exact x).digits := by
    refine Nat.pos_of_ne_zero fun h => ?_
    rw [h, Nat.cast_zero, zero_mul, eq_comm, quotient_eq_zero_iff hden] at hvalue
    omega
  rw [Scaled.readsAs_iff, ofDecimal_eq _ hdigits]
  rw [← quotient_scaleDecimal] at hvalue
  rw [ofRatio_congr _ (scaleDecimal_pos _).1 hden hvalue, ofRatio_ratio hfinite hzero]

omit hfinite hzero in
theorem readsAs_trimmed {d : Scaled} (h : d.readsAs x = true) : d.trimmed.readsAs x = true := by
  rw [Scaled.readsAs_iff] at h ⊢
  unfold Scaled.trimmed
  split
  · rename_i hmod
    refine (ofDecimal_congr _ ?_).trans h
    have hdiv : d.digits = d.digits / 10 * 10 := by omega
    conv_rhs => rw [hdiv]
    rw [zpow_add_one₀ (by norm_num)]
    push_cast
    ring
  · exact h

/-- The shortest decimal of a finite double other than zero is read as that double. -/
theorem readsAs_shortest : (shortest x).readsAs x = true := by
  refine readsAs_trimmed ?_
  cases h : shortest? x with
  | none => exact readsAs_exact hfinite hzero
  | some d =>
    obtain ⟨k, -, hk⟩ := List.exists_of_findSome?_eq_some h
    exact readsAs_of_onGrid? hk

/-- The shortest decimal of a double other than zero has digits. -/
theorem shortest_digits_pos : 0 < (shortest x).digits := by
  refine Nat.pos_of_ne_zero fun h => ?_
  have hreads := Scaled.readsAs_iff.1 (readsAs_shortest hfinite hzero)
  rw [h, ofDecimal, if_pos rfl] at hreads
  have hnot : ∀ b, (zero b).isZero = true := by decide
  rw [← hreads, hnot] at hzero
  cases hzero

end Whittle.Decimal
