import Whittle.Proofs.Decimal.Numeral
import Whittle.Source

/-!
# The characters of printed texts

Most of what a printer writes is printable ASCII: words, signs, numerals and escaped texts. What
a tree says about itself, such as a name or the text of a directive, is written as it is. So the
characters of a text are told apart by a test for those that may stand besides printable ASCII.
-/

namespace Whittle.Source

/-- The characters from the space to the tilde. -/
def isPlainAscii (c : Char) : Bool :=
  0x20 ≤ c.toNat && c.toNat ≤ 0x7e

/-- All characters of a text are printable ASCII or among some others. -/
def Within (extra : Char → Bool) (s : String) : Prop :=
  ∀ c ∈ s.toList, isPlainAscii c = true ∨ extra c = true

variable {extra : Char → Bool} {s t : String} {ss : List String}

/-! ## Texts put together -/

/-- Words and signs are printable ASCII. -/
@[simp] theorem within_of_plain (h : s.toList.all isPlainAscii = true) : Within extra s := by
  intro c hc
  exact .inl (List.all_eq_true.1 h c hc)

@[simp] theorem within_append : Within extra (s ++ t) ↔ Within extra s ∧ Within extra t := by
  simp [Within, or_imp, forall_and]

@[simp] theorem within_ite {p : Prop} [Decidable p] (hs : Within extra s) (ht : Within extra t) :
    Within extra (if p then s else t) := by
  by_cases hp : p
  · rw [if_pos hp]
    exact hs
  · rw [if_neg hp]
    exact ht

theorem within_ite_iff {p c : Prop} [Decidable p] (hs : Within extra s ↔ c)
    (ht : Within extra t ↔ c) : Within extra (if p then s else t) ↔ c := by
  by_cases hp : p
  · rwa [if_pos hp]
  · rwa [if_neg hp]

@[simp] theorem within_braced : Within extra (braced s) ↔ Within extra s := by
  simp +decide [braced]

@[simp] theorem within_inParens : Within extra (inParens s) ↔ Within extra s := by
  simp +decide [inParens]

@[simp] theorem within_join : Within extra (String.join ss) ↔ ∀ s ∈ ss, Within extra s := by
  induction ss with
  | nil => simp +decide
  | cons s ss ih => rw [String.join_cons, within_append, ih, List.forall_mem_cons]

@[simp] theorem within_commaList : Within extra (commaList ss) ↔ ∀ s ∈ ss, Within extra s := by
  induction ss with
  | nil => simp +decide [commaList]
  | cons s ss ih =>
    cases ss with
    | nil => simp [commaList]
    | cons t ss =>
      have hlist : commaList (s :: t :: ss) = s ++ "," ++ commaList (t :: ss) := by
        rw [commaList, commaList, String.intercalate_cons_cons]
      rw [hlist, within_append, within_append, ih, List.forall_mem_cons (a := s)]
      simp +decide

@[simp] theorem within_joined : ∀ {xs : List (String × Bool)},
    Within extra (joined xs) ↔ ∀ x ∈ xs, Within extra x.1
  | [] => by simp +decide [joined]
  | [x] => by simp [joined]
  | x :: y :: xs => by
    rw [joined, within_append, within_append, within_joined, List.forall_mem_cons (a := x)]
    · simp +decide
    · exact nofun

@[simp] theorem within_spaceBefore : Within extra (spaceBefore s) := by
  unfold spaceBefore
  split
  · exact within_of_plain (by decide)
  · exact within_ite (within_of_plain (by decide)) (within_of_plain (by decide))

@[simp] theorem within_directiveText :
    Within extra (directiveText (.str s)) ↔ Within extra s := by
  unfold directiveText
  exact within_ite_iff (by simp +decide [Tree.plain]) (by simp +decide [Tree.plain])

/-! ## Escaped texts -/

theorem isPlainAscii_of_mem_hexDigits {width n : Nat} {c : Char}
    (h : c ∈ Text.hexDigits width n) : isPlainAscii c = true := by
  have hdigit : ∀ d < 16, isPlainAscii (Text.hexDigit d) = true := by decide
  induction width generalizing n with
  | zero => cases h
  | succ width ih =>
    rw [Text.hexDigits, List.mem_append, List.mem_singleton] at h
    rcases h with h | rfl
    · exact ih h
    · exact hdigit _ (Nat.mod_lt n (by decide))

theorem isPlainAscii_of_mem_unitEscape {n : Nat} {c : Char} (h : c ∈ Text.unitEscape n) :
    isPlainAscii c = true := by
  rw [Text.unitEscape, List.mem_cons, List.mem_cons] at h
  rcases h with rfl | rfl | h
  · decide
  · decide
  · exact isPlainAscii_of_mem_hexDigits h

/-- Where everything outside ASCII is escaped, only printable ASCII is left. -/
theorem isPlainAscii_of_mem_escapedChar {c d : Char} (h : d ∈ Text.escapedChar true c) :
    isPlainAscii d = true := by
  unfold Text.escapedChar at h
  split at h
  · rename_i e he
    have hplain : isPlainAscii e = true := by
      unfold Text.shortEscape? at he
      split at he
      · rename_i hc
        cases he
        have hmark : c = Text.doubleQuote ∨ c = Text.backslash := by simpa using hc
        rcases hmark with rfl | rfl <;> decide
      iterate 5
        split at he
        · cases he
          decide
      cases he
    rw [List.mem_cons, List.mem_singleton] at h
    rcases h with rfl | rfl
    · decide
    · exact hplain
  · split at h
    · unfold Text.unicodeEscape at h
      dsimp only at h
      split at h
      · exact isPlainAscii_of_mem_unitEscape h
      · rcases List.mem_append.1 h with h | h <;> exact isPlainAscii_of_mem_unitEscape h
    · rename_i hc
      obtain rfl := List.mem_singleton.1 h
      simp only [Bool.true_and, Bool.or_eq_true, decide_eq_true_eq, not_or] at hc
      simp only [isPlainAscii, Bool.and_eq_true, decide_eq_true_eq]
      omega

@[simp] theorem within_escaped : Within extra (Text.escaped true s) := by
  intro c hc
  left
  rw [Text.escaped, String.toList_ofList] at hc
  rcases List.mem_cons.1 hc with rfl | hc
  · decide
  · rcases List.mem_append.1 hc with hc | hc
    · obtain ⟨d, -, hd⟩ := List.mem_flatMap.1 hc
      exact isPlainAscii_of_mem_escapedChar hd
    · obtain rfl := List.mem_singleton.1 hc
      decide

/-! ## Numerals -/

theorem isPlainAscii_of_isDigit {c : Char} (h : c.isDigit = true) : isPlainAscii c = true := by
  have hbounds : 48 ≤ c.toNat ∧ c.toNat ≤ 57 := by
    simpa [Char.isDigit, UInt32.le_iff_toNat_le] using h
  simp only [isPlainAscii, Bool.and_eq_true, decide_eq_true_eq]
  omega

theorem within_of_digits (h : ∀ c ∈ s.toList, c.isDigit = true) : Within extra s := by
  intro c hc
  exact .inl (isPlainAscii_of_isDigit (h c hc))

@[simp] theorem within_natText {n : Nat} : Within extra (Decimal.natText n) :=
  within_of_digits fun _ => Decimal.isDigit_of_mem_natText

@[simp] theorem within_zeros {n : Nat} : Within extra (Decimal.zeros n) := by
  refine within_of_digits fun c hc => ?_
  rw [Decimal.zeros, String.toList_ofList] at hc
  exact Decimal.isDigit_of_mem_zeros hc

@[simp] theorem within_padded {width n : Nat} : Within extra (Decimal.padded width n) :=
  within_of_digits fun _ => Decimal.isDigit_of_mem_padded

theorem within_intText {i : Int} : Within extra (Decimal.intText i) := by
  unfold Decimal.intText
  split
  · simp +decide
  · exact within_natText

theorem within_ofList {cs ds : List Char} (h : Within extra (String.ofList ds))
    (hcs : ∀ c ∈ cs, c ∈ ds) : Within extra (String.ofList cs) := by
  intro c hc
  rw [String.toList_ofList] at hc
  exact h c (by rw [String.toList_ofList]; exact hcs c hc)

theorem within_positional (h : Within extra s) (place : Int) :
    Within extra (Decimal.positional s place) := by
  have hs : Within extra (String.ofList s.toList) := by rwa [String.ofList_toList]
  unfold Decimal.positional
  dsimp only
  split
  · simp +decide [h]
  · split
    · simp +decide [h]
    · have htake : Within extra (String.ofList (s.toList.take (place.toNat + 1))) :=
        within_ofList hs fun c hc => List.mem_of_mem_take hc
      have hdrop : Within extra (String.ofList (s.toList.drop (place.toNat + 1))) :=
        within_ofList hs fun c hc => List.mem_of_mem_drop hc
      simp +decide [htake, hdrop]

theorem within_scientific (h : Within extra s) (f : Decimal.NumeralStyle) (place : Int) :
    Within extra (Decimal.scientific f s place) := by
  have hs : Within extra (String.ofList s.toList) := by rwa [String.ofList_toList]
  unfold Decimal.scientific
  dsimp only
  rw [within_append, within_append]
  refine ⟨⟨?mantissa, ?sign⟩, within_padded⟩
  case sign => exact within_ite (within_of_plain (by decide)) (within_of_plain (by decide))
  case mantissa =>
    split
    · exact within_of_plain (by decide)
    · rename_i d hd
      rwa [hd] at hs
    · rename_i d rest hne hd
      rw [hd] at hs
      intro c hc
      rw [String.toList_ofList, List.mem_cons, List.mem_cons] at hc
      rcases hc with rfl | rfl | hc
      · exact hs c (by simp)
      · exact .inl (by decide)
      · exact hs c (by simp [hc])

theorem within_doubleText (x : Double) :
    Within extra (Decimal.doubleText Decimal.plainStyle x) := by
  have hmagnitude : Within extra (Decimal.magnitudeText Decimal.plainStyle x) := by
    unfold Decimal.magnitudeText
    dsimp only
    exact within_ite (within_positional within_natText _) (within_scientific within_natText _ _)
  have hword : ∀ w : String, w ∈ ["nan", "inf", "-", "", "0.0"] → Within extra w := by
    have hall : ∀ w ∈ ["nan", "inf", "-", "", "0.0"], w.toList.all isPlainAscii = true := by decide
    exact fun w hw => within_of_plain (hall w hw)
  unfold Decimal.doubleText
  refine within_ite (hword _ (by decide)) (within_append.2 ⟨?_, ?_⟩)
  · exact within_ite (hword _ (by decide)) (hword _ (by decide))
  · exact within_ite (hword _ (by decide)) (within_ite (hword _ (by decide)) hmagnitude)

/-- Numbers are written in printable ASCII. -/
theorem within_numeral {v : Tree} (h : (∃ i, v = .int i) ∨ ∃ x, v = .float x) :
    Within extra (numeral v) := by
  rcases h with ⟨i, rfl⟩ | ⟨x, rfl⟩
  · exact within_intText
  · rw [numeral]
    cases x.toInt? with
    | none => exact within_doubleText x
    | some i => exact within_ite within_intText (within_doubleText x)

end Whittle.Source
