import Mathlib
import Whittle.Proofs.Decimal.Numeral
import Whittle.Sample.Gen
import Whittle.Validity.Rules

/-!
# Fresh names

A fresh name is a letter and a number. Distinct numbers give distinct names, and none of them is
a word of the language, because no such word has a digit in it. So a fresh name may be bound
wherever it is the first one of its number.
-/

namespace Whittle.Sample

/-- The name of a letter and a number. -/
def numbered (letter : String) (i : Nat) : String := letter ++ Decimal.natText i

/-- Whether no digit occurs in a text. -/
def lacksDigits (s : String) : Bool := s.toList.all fun c => !c.isDigit

variable {letter : String} {i j : Nat}

theorem numbered_inj : numbered letter i = numbered letter j ↔ i = j := by
  rw [numbered, numbered, String.append_right_inj]
  exact Nat.repr_inj

/-- A digit occurs in every numbered name. -/
theorem lacksDigits_numbered : lacksDigits (numbered letter i) = false := by
  obtain ⟨c, hc⟩ : ∃ c, c ∈ (Decimal.natText i).toList :=
    List.exists_mem_of_ne_nil _ Decimal.natText_ne_nil
  have hmem : c ∈ (numbered letter i).toList := by
    rw [numbered, String.toList_append]
    exact List.mem_append_right _ hc
  refine List.all_eq_false.2 ⟨c, hmem, ?_⟩
  simp [Decimal.isDigit_of_mem_natText hc]

theorem numbered_ne {s : String} (h : lacksDigits s = true) : numbered letter i ≠ s := by
  rintro rfl
  rw [lacksDigits_numbered] at h
  cases h

theorem numbered_notMem {words : List String} (h : words.all lacksDigits = true) :
    numbered letter i ∉ words :=
  fun hmem => numbered_ne (List.all_eq_true.1 h _ hmem) rfl

theorem isIdentifierName_numbered (h : Rules.isIdentifierName letter = true) :
    Rules.isIdentifierName (numbered letter i) = true := by
  unfold Rules.isIdentifierName at h ⊢
  rw [numbered, String.toList_append]
  cases hletter : letter.toList with
  | nil => simp [hletter] at h
  | cons c cs =>
    simp only [hletter, Bool.and_eq_true] at h
    simp only [List.cons_append, List.all_append, Bool.and_eq_true]
    refine ⟨h.1, h.2, List.all_eq_true.2 fun d hd => ?_⟩
    rw [Decimal.isDigit_of_mem_natText hd, Bool.or_true]

theorem spelling_numbered (h : Rules.isIdentifierName letter = true) :
    Rules.spelling (numbered letter i) true = [] := by
  have hreserved : numbered letter i ∉ Rules.reservedWords :=
    numbered_notMem (by decide)
  simp [Rules.spelling, isIdentifierName_numbered h, EarlyError.when, hreserved]

/-- A numbered name may be bound anywhere. -/
theorem binding_numbered (c : Context) : Rules.binding c (numbered "v" i) = [] := by
  have hdefault : numbered "v" i ≠ defaultExportName := numbered_ne (by decide)
  have hrestricted : numbered "v" i ∉ Rules.restrictedNames :=
    numbered_notMem (by decide)
  have hspelling : Rules.spelling (numbered "v" i) true = [] :=
    spelling_numbered (by decide)
  simp [Rules.binding, hdefault, hspelling, EarlyError.when, hrestricted]

/-! ## The names handed out in between -/

/-- The names that are handed out while their number grows from `n` to `k`. -/
def handedOut (n k : Nat) : Set String := {s | ∃ i, n ≤ i ∧ i < k ∧ s = numbered "v" i}

variable {n m k : Nat}

theorem handedOut_mono {n' k' : Nat} (hn : n' ≤ n) (hk : k ≤ k') :
    handedOut n k ⊆ handedOut n' k' := by
  rintro s ⟨i, hi, hik, rfl⟩
  exact ⟨i, hn.trans hi, hik.trans_le hk, rfl⟩

/-- What is handed out first is not handed out again. -/
theorem disjoint_handedOut (n m k : Nat) : Disjoint (handedOut n m) (handedOut m k) := by
  refine Set.disjoint_left.2 ?_
  rintro s ⟨i, -, him, rfl⟩ ⟨j, hmj, -, heq⟩
  rw [numbered_inj] at heq
  omega

theorem defaultExportName_notMem_handedOut : defaultExportName ∉ handedOut n k := by
  rintro ⟨i, -, -, heq⟩
  exact numbered_ne (by decide) heq.symm

end Whittle.Sample
