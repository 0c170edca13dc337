import Whittle.Proofs.Source.Printed
import Whittle.Proofs.Validity.Jumps

/-!
# Valid programs are printed in printable ASCII

Names are spelled in ASCII, each where it stands and the label of a jump where it is declared:
that is checked, so no valid program has another name. What remains are the texts that a program
is free to choose, and property names of digits, which are printed as they are although a digit
may be outside ASCII. So a valid program is printed in printable ASCII just if these are.
-/

namespace Whittle.Source

open Grammar Whittle.Language

variable {extra : Char → Bool} {t : Tree} {p : Path} {k : Kind} {fields : List Tree} {s : String}

/-- The texts of a node that are printed as they are and that no rule is about, but that a
pattern is not empty. -/
def freeTexts : Kind → List Tree → List String
  | .directive, [.str raw] => [raw]
  | .templateElement, [.str raw] => [raw]
  | .literalRegExpExpression, .str pattern :: _ => [pattern]
  | _, _ => []

/-- The name of a property if it stands without quotes because it is made of digits, which may
be those of any script. -/
def digitNames : Kind → List Tree → List String
  | .staticPropertyName, [.str name] =>
    if Text.allDigits name && isBareName name then [name] else []
  | _, _ => []

/-! ## Names -/

theorem isPlainAscii_of_isIdentifierStart {c : Char} (h : Rules.isIdentifierStart c = true) :
    isPlainAscii c = true := by
  simp only [Rules.isIdentifierStart, Bool.or_eq_true, beq_iff_eq] at h
  rcases h with (hletter | rfl) | rfl
  · have hbounds : 65 ≤ c.toNat ∧ c.toNat ≤ 90 ∨ 97 ≤ c.toNat ∧ c.toNat ≤ 122 := by
      simpa [Char.isAlpha, Char.isUpper, Char.isLower, UInt32.le_iff_toNat_le] using hletter
    simp only [isPlainAscii, Bool.and_eq_true, decide_eq_true_eq]
    omega
  · decide
  · decide

/-- A text that is spelled like an identifier is printable ASCII. -/
theorem within_of_isIdentifierName (h : Rules.isIdentifierName s = true) : Within extra s := by
  unfold Rules.isIdentifierName at h
  split at h
  · cases h
  · rename_i c cs hcs
    obtain ⟨hc, hall⟩ := Bool.and_eq_true_iff.1 h
    intro d hd
    left
    rw [hcs] at hd
    rcases List.mem_cons.1 hd with rfl | hd
    · exact isPlainAscii_of_isIdentifierStart hc
    · rcases Bool.or_eq_true_iff.1 (List.all_eq_true.1 hall d hd) with hd | hd
      · exact isPlainAscii_of_isIdentifierStart hd
      · exact isPlainAscii_of_isDigit hd

theorem isIdentifierName_of_spelling {name : String} {reserved : Bool}
    (h : Rules.spelling name reserved = []) : Rules.isIdentifierName name = true := by
  unfold Rules.spelling at h
  by_cases hname : Rules.isIdentifierName name = true
  · exact hname
  · simp [hname] at h

/-! ## What validity says of a node -/

/-- A node of a valid program breaks no rule in its context. -/
theorem nodeErrors_of_isValid (hvalid : t.isValid = true) (hget : t.get p = .ok (.node k fields)) :
    ∃ c, contextIn? {} (t.ancestors p) = some c ∧ nodeErrors c k fields = some [] := by
  have ht : t.wellTyped = true := wellTyped_iff.2 (isValid_iff.1 hvalid).1
  obtain ⟨c, own, hc, hown⟩ := exists_contextAt ht hget
  have hnil : own = [] := by
    refine List.eq_nil_iff_forall_not_mem.2 fun e he => ?_
    have hmem := (mem_earlyErrors ht).2 ⟨p, k, fields, c, own, e, he, hget, hc, hown, rfl⟩
    rw [Tree.isValid, List.isEmpty_iff] at hvalid
    rw [hvalid] at hmem
    cases hmem
  exact ⟨c, hc, by rw [hown, hnil]⟩

/-- The label of a labeled statement is spelled like an identifier. -/
theorem isIdentifierName_label {label : String} {body : Tree} (hvalid : t.isValid = true)
    (hget : t.get p = .ok (.node .labeledStatement [.str label, body])) :
    Rules.isIdentifierName label = true := by
  obtain ⟨c, -, herrors⟩ := nodeErrors_of_isValid hvalid hget
  obtain ⟨single, -, herrors⟩ := Option.bind_eq_some_iff.1 herrors
  have hlabel := (List.append_eq_nil_iff.1 (Option.some.inj herrors)).2
  exact isIdentifierName_of_spelling (List.append_eq_nil_iff.1 hlabel).2

/-- A label that a node may jump to is that of a labeled statement around it. -/
theorem isIdentifierName_of_label? {c : Context} {label : String} (hvalid : t.isValid = true)
    (hc : contextIn? {} (t.ancestors p) = some c) (hlabel : c.label? label ≠ none) :
    Rules.isIdentifierName label = true := by
  have hwalkable := (isValid_iff.1 hvalid).1.walkable
  have hfits := hwalkable.ancestors (p := p)
  rw [Ne, label?_eq_none (jumps_eq_around hfits hc) hfits] at hlabel
  obtain ⟨a, ha⟩ := not_forall.1 hlabel
  obtain ⟨hmem, hlabelled⟩ := Classical.not_imp.1 ha
  obtain ⟨q, hq⟩ := exists_get_of_mem_ancestors ((List.takeWhile_sublist _).subset hmem)
  obtain ⟨l, fs, field⟩ := a
  unfold Ancestor.isLabelled at hlabelled
  split at hlabelled
  · rename_i name body hkind hfields
    simp only at hkind hfields
    subst hkind hfields
    rw [Bool.not_eq_false, beq_iff_eq] at hlabelled
    subst hlabelled
    exact isIdentifierName_label hvalid hq
  · exact absurd rfl hlabelled

/-- The name of a binding is that of an anonymous default export or spelled like an identifier. -/
theorem within_bindingName {c : Context} {name : String}
    (h : Rules.binding c name = []) : Within extra name := by
  unfold Rules.binding at h
  split at h
  · rename_i hname
    rw [eq_of_beq hname]
    exact within_of_plain (by decide)
  · exact within_of_isIdentifierName (isIdentifierName_of_spelling (List.append_eq_nil_iff.1 h).1)

/-- Of what a valid program prints as it is, only texts that it is free to choose and names of
digits may be outside printable ASCII. -/
theorem within_rawTexts (hvalid : t.isValid = true)
    (hget : t.get p = .ok (.node k fields)) (hfree : ∀ s ∈ freeTexts k fields, Within extra s)
    (hdigits : ∀ s ∈ digitNames k fields, Within extra s) :
    ∀ s ∈ rawTexts k fields, Within extra s := by
  obtain ⟨c, hc, herrors⟩ := nodeErrors_of_isValid hvalid hget
  intro s hs
  unfold rawTexts at hs
  -- The first three are free; the rules spell all other names but the labels of jumps.
  split at hs
  case h_1 | h_2 | h_3 => exact hfree s hs
  case h_4 =>
    obtain rfl := List.mem_singleton.1 hs
    exact within_bindingName (Option.some.inj herrors)
  case h_5 | h_6 =>
    obtain rfl := List.mem_singleton.1 hs
    exact within_of_isIdentifierName (isIdentifierName_of_spelling (Option.some.inj herrors))
  case h_7 | h_8 =>
    obtain rfl := List.mem_singleton.1 hs
    have hspelling := (List.append_eq_nil_iff.1 (Option.some.inj herrors)).2
    exact within_of_isIdentifierName (isIdentifierName_of_spelling hspelling)
  case h_9 =>
    obtain rfl := List.mem_singleton.1 hs
    exact within_of_isIdentifierName (isIdentifierName_label hvalid hget)
  -- A jump must have its label around it, where it is spelled.
  case h_10 =>
    obtain rfl := List.mem_singleton.1 hs
    refine within_of_isIdentifierName (isIdentifierName_of_label? hvalid hc ?_)
    intro hnone
    simp [nodeErrors, Rules.breakStatement, hnone] at herrors
  case h_11 =>
    obtain rfl := List.mem_singleton.1 hs
    refine within_of_isIdentifierName (isIdentifierName_of_label? hvalid hc ?_)
    intro hnone
    simp [nodeErrors, Rules.continueStatement, hnone] at herrors
  case h_12 =>
    split at hs
    · rename_i hbare
      obtain rfl := List.mem_singleton.1 hs
      rcases Bool.or_eq_true_iff.1 hbare with hname | hnumber
      · exact within_of_isIdentifierName hname
      · exact hdigits s (by simp [digitNames, hbare, (Bool.and_eq_true_iff.1 hnumber).1])
    · cases hs
  case h_13 => cases hs

theorem mem_rawTexts_of_mem_freeTexts (h : s ∈ freeTexts k fields) : s ∈ rawTexts k fields := by
  unfold freeTexts at h
  split at h
  · exact h
  · exact h
  · exact h
  · cases h

theorem mem_rawTexts_of_mem_digitNames (h : s ∈ digitNames k fields) : s ∈ rawTexts k fields := by
  unfold digitNames at h
  split at h
  · split at h
    · rename_i hdigits
      rw [rawTexts, if_pos (Bool.and_eq_true_iff.1 hdigits).2]
      exact h
    · cases h
  · cases h

/-! ## Programs -/

/-- The raw texts of a valid program are within an alphabet just if the texts that it is free to
choose and its property names of digits are. -/
theorem rawWithin_iff (hvalid : t.isValid = true) :
    RawWithin extra t ↔ (t.Each fun k fields => ∀ s ∈ freeTexts k fields, Within extra s) ∧
      t.Each fun k fields => ∀ s ∈ digitNames k fields, Within extra s := by
  constructor
  · intro h
    exact ⟨h.mono fun _ _ h s hs => h s (mem_rawTexts_of_mem_freeTexts hs),
      h.mono fun _ _ h s hs => h s (mem_rawTexts_of_mem_digitNames hs)⟩
  · rintro ⟨hfree, hdigits⟩
    exact each_of_get (isValid_iff.1 hvalid).1.walkable fun p k fields hget =>
      within_rawTexts hvalid hget (hfree.get hget) (hdigits.get hget)

theorem within_false_iff :
    Within (fun _ => false) s ↔ s.toList.all isPlainAscii = true := by
  simp [Within]

/-- A valid program, whatever is in its string literals and its other property names, is printed,
and, if the texts that it is free to choose are printable ASCII, in printable ASCII just if its
property names of digits are. -/
theorem source_isPlainAscii_iff (hvalid : t.isValid = true)
    (hroot : t.isKind .script = true ∨ t.isKind .esModule = true)
    (hfree : t.Each fun k fields => ∀ s ∈ freeTexts k fields, s.toList.all isPlainAscii = true) :
    ∃ s, t.source = .ok s ∧ (s.toList.all isPlainAscii = true ↔
      t.Each fun k fields => ∀ s ∈ digitNames k fields, s.toList.all isPlainAscii = true) := by
  obtain ⟨k, fields, rfl, hk⟩ : ∃ k fields, t = .node k fields ∧ k ∈ printedKinds := by
    rcases hroot with h | h <;> obtain ⟨fields, rfl⟩ := isKind_iff.1 h
    · exact ⟨_, fields, rfl, by decide⟩
    · exact ⟨_, fields, rfl, by decide⟩
  obtain ⟨s, hs, hwithin⟩ := exists_printed (fun _ => false) (isValid_iff.1 hvalid).1.walkable hk
  refine ⟨s, ?_, ?_⟩
  · rw [Tree.source, hs]
    rfl
  · simp only [← within_false_iff] at hfree ⊢
    rw [hwithin, rawWithin_iff hvalid]
    exact and_iff_right hfree

/-- A script with a directive, a jump to a label, a text and a property name that are outside
ASCII, and a property name of digits. -/
def dictionary : Tree :=
  .node .script [.list [.node .directive [.str "use strict"]], .list [
    .node .labeledStatement [.str "a",
      .node .blockStatement [.node .block [.list [.node .breakStatement [.str "a"]]]]],
    .node .expressionStatement [.node .objectExpression [.list [
      .node .dataProperty [.node .staticPropertyName [.str "é"],
        .node .literalStringExpression [.str "日"]],
      .node .dataProperty [.node .staticPropertyName [.str "10"],
        .node .literalNullExpression []]]]]]]

theorem source_isPlainAscii_iff_dictionary :
    dictionary.isValid = true ∧
      ∃ s, dictionary.source = .ok s ∧ s.toList.all isPlainAscii = true := by
  have hvalid : dictionary.isValid = true := by decide +kernel
  have hfree : dictionary.Each fun k fields =>
      ∀ s ∈ freeTexts k fields, s.toList.all isPlainAscii = true := by
    simp [dictionary, freeTexts, isPlainAscii]
  have hdigits : dictionary.Each fun k fields =>
      ∀ s ∈ digitNames k fields, s.toList.all isPlainAscii = true := by
    have hletter : Text.allDigits "é" = false := by decide
    simp [dictionary, digitNames, hletter]
    rintro s - - rfl
    exact List.all_eq_true.1 (by decide)
  obtain ⟨s, hs, hplain⟩ := source_isPlainAscii_iff hvalid (.inl rfl) hfree
  exact ⟨hvalid, s, hs, hplain.2 hdigits⟩

/-- The object `{²: null}`: no text in it is free, but its property name is a digit. -/
def superscript : Tree :=
  .node .script [.list [], .list [.node .expressionStatement [.node .objectExpression [.list [
    .node .dataProperty [.node .staticPropertyName [.str "²"],
      .node .literalNullExpression []]]]]]]

/-- A property name that is a digit outside ASCII is printed as it is. -/
theorem source_superscript :
    superscript.isValid = true ∧ superscript.isKind .script = true ∧
      (superscript.Each fun k fields =>
        ∀ s ∈ freeTexts k fields, s.toList.all isPlainAscii = true) ∧
      ¬ ∃ s, superscript.source = .ok s ∧ s.toList.all isPlainAscii = true := by
  have hsource : superscript.source = .ok "({²:null})" := by rfl
  refine ⟨by decide +kernel, rfl, by simp +decide [superscript, freeTexts], ?_⟩
  rintro ⟨s, hs, hall⟩
  obtain rfl : "({²:null})" = s := Except.ok.inj (hsource.symm.trans hs)
  exact absurd hall (by decide)

end Whittle.Source
