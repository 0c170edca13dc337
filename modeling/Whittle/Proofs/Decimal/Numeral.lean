import Whittle.Decimal.Numeral

/-!
# Digits

The digits of a natural number, and the number that digits have as their value.
-/

namespace Whittle.Decimal

variable {n : Nat}

theorem toList_natText : (natText n).toList = Nat.toDigits 10 n := by
  rw [natText, Nat.toString_eq_repr, Nat.repr, String.toList_ofList]

theorem isDigit_of_mem_natText {c : Char} (h : c ∈ (natText n).toList) : c.isDigit = true := by
  rw [toList_natText] at h
  exact Nat.isDigit_of_mem_toDigits (b := 10) (by decide) (by decide) h

theorem isDigit_of_mem_zeros {k : Nat} {c : Char} (h : c ∈ List.replicate k '0') :
    c.isDigit = true := by
  rw [List.eq_of_mem_replicate h]
  rfl

theorem natText_ne_nil : (natText n).toList ≠ [] := toList_natText ▸ Nat.toDigits_ne_nil

/-- A positive number begins with another digit than zero. -/
theorem head?_natText (hn : 0 < n) : (natText n).toList.head? ≠ some '0' := by
  rw [toList_natText]
  induction n using Nat.strongRecOn with
  | ind n ih =>
    rw [Nat.toDigits_eq_if (by decide)]
    split
    · rw [List.head?_cons, Ne, Option.some.injEq, Nat.digitChar_eq_zero]
      exact Nat.ne_of_gt hn
    · have hrest := ih (n / 10) (Nat.div_lt_self hn (by decide)) (by omega)
      obtain ⟨c, cs, hcs⟩ := List.exists_cons_of_ne_nil
        (Nat.toDigits_ne_nil (n := n / 10) (b := 10))
      rw [hcs] at hrest ⊢
      exact hrest

/-! ## Values -/

theorem natOfDigits_natText : natOfDigits (natText n).toList = n := by
  rw [toList_natText]
  exact Nat.ofDigitChars_ten_toDigits

theorem natOfDigits_append (as bs : List Char) :
    natOfDigits (as ++ bs) = natOfDigits as * Nat.pow 10 bs.length + natOfDigits bs := by
  have happend : natOfDigits (as ++ bs) = Nat.ofDigitChars 10 bs (natOfDigits as) :=
    Nat.ofDigitChars_append 0
  rw [happend, Nat.ofDigitChars_eq_ofDigitChars_zero, Nat.mul_comm]
  rfl

/-- A zero in front does not count. -/
theorem natOfDigits_zero_cons (cs : List Char) : natOfDigits ('0' :: cs) = natOfDigits cs := rfl

theorem natOfDigits_replicate (k : Nat) : natOfDigits (List.replicate k '0') = 0 :=
  Nat.ofDigitChars_replicate_zero

theorem toList_padded (width : Nat) : (padded width n).toList
    = List.replicate (width - (natText n).length) '0' ++ (natText n).toList := by
  rw [padded, String.toList_append, zeros, String.toList_ofList]

/-- Padding does not change the value. -/
theorem natOfDigits_padded (width : Nat) : natOfDigits (padded width n).toList = n := by
  rw [toList_padded, natOfDigits_append, natOfDigits_replicate, Nat.zero_mul, Nat.zero_add,
    natOfDigits_natText]

theorem isDigit_of_mem_padded {width : Nat} {c : Char} (h : c ∈ (padded width n).toList) :
    c.isDigit = true := by
  rw [toList_padded, List.mem_append] at h
  exact h.elim isDigit_of_mem_zeros isDigit_of_mem_natText

theorem padded_ne_nil (width : Nat) : (padded width n).toList ≠ [] := by
  rw [toList_padded]
  exact List.append_ne_nil_of_right_ne_nil _ natText_ne_nil

end Whittle.Decimal
