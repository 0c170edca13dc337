import Whittle.Proofs.Minimal.Statements

/-!
# Minimal programs for what may stand anywhere

A `throw` statement, a string and a template need nothing of their surroundings once they are as
simple as they can be. For each of them there is one minimal script.
-/

namespace Whittle

open Grammar Whittle.Language Simplification

/-- The smallest script with a node of the kind, for kinds whose nodes may stand anywhere. -/
def freeProgram : Kind → Option Tree
  | .throwStatement => some (scriptOf (.node .throwStatement [.node .literalNullExpression []]))
  | .literalStringExpression =>
    some (scriptOf (.node .expressionStatement [.node .literalStringExpression [.str ""]]))
  | .templateExpression =>
    some (scriptOf (.node .expressionStatement [
      .node .templateExpression [.absent, .list [.node .templateElement [.str ""]]]]))
  | _ => none

namespace Minimal

variable {t : Tree}

/-- A minimal script for a `throw` statement throws `null`. -/
theorem freeProgram_throw (h : Minimal .throwStatement t) (hroot : t.isKind .script = true) :
    freeProgram .throwStatement = some t := by
  obtain ⟨fs, fields, hfs, ht⟩ := exists_frames_of_contains
    (show FitsAt false none t from h.isFit) h.contains
  obtain ⟨e, rfl, he⟩ := (fit_one rfl rfl).1 (FitsAt.isFit (h.fitsAt hfs ht))
  obtain ⟨k, us, rfl, hk, -⟩ := fitsType_expression.1 he
  -- what is thrown is `null`
  have hpos : Positions (.field .throwStatement [] [] :: fs) := .cons rfl hfs
  have hnull := h.eq_null hpos ht hk rfl (occursAround_kind _ _ _ _)
  rw [hnull] at ht
  have hclosed : Closed (.node .throwStatement [.node .literalNullExpression []]) := fun _ => rfl
  rw [h.eq_script_statement hroot hclosed.needs rfl rfl rfl hfs ht]
  rfl

/-- A minimal script for a string has an empty one. -/
theorem freeProgram_string (h : Minimal .literalStringExpression t)
    (hroot : t.isKind .script = true) : freeProgram .literalStringExpression = some t := by
  obtain ⟨fs, fields, hfs, ht⟩ := exists_frames_of_contains
    (show FitsAt false none t from h.isFit) h.contains
  have hstring := h.fitsAt hfs ht
  obtain ⟨v, rfl, hv⟩ := (fit_one rfl rfl).1 (FitsAt.isFit hstring)
  obtain ⟨s, rfl⟩ := fitsType_string.1 hv
  have hclosed : Closed (.node .literalStringExpression [.str ""]) := fun _ => rfl
  have hempty : FieldsFit false .literalStringExpression Kind.literalStringExpression.slots
      [.str ""] := (fit_one rfl rfl).2 ⟨_, rfl, fitsType_string.2 ⟨_, rfl⟩⟩
  have hs : s = "" := by
    by_cases hs : s = ""
    · exact hs
    · have hfit := hstring.refill hempty
      refine (h.not_simplified hfs ht ?_ hfit
        (trims_of_inert hfs rfl rfl (hclosed.asClean _) hfit) (contains_plugAll fs rfl)).elim
      have htext : (Tree.str s).isText "" = false := by simpa [Tree.isText] using hs
      simp only [simplifications, simplified, htext, newNode_of_fieldsFit rfl hempty]
      simp [one, Series.ofExcept]
  subst hs
  rw [h.eq_script_expression hroot hclosed.needs rfl rfl rfl hfs ht]
  rfl

/-! ### Templates -/

theorem alternation_add_two (i : Nat) (es : List Tree) :
    Rules.alternation (i + 2) es = [] ↔ Rules.alternation i es = [] := by
  induction es generalizing i with
  | nil => exact Iff.rfl
  | cons e es ih =>
    rw [Rules.alternation, Rules.alternation, List.append_eq_nil_iff, List.append_eq_nil_iff,
      EarlyError.when_eq_nil, EarlyError.when_eq_nil, Nat.add_mod_right, Nat.add_right_comm, ih]

/-- The elements of a template go on as they are without the first two. -/
theorem template_tail {a b : Tree} {es : List Tree} (h : Rules.template (a :: b :: es) = []) :
    Rules.template es = [] := by
  rw [Rules.template, List.append_eq_nil_iff, EarlyError.when_eq_nil, List.length_cons,
    List.length_cons, Nat.add_assoc, Nat.add_mod_right] at h
  obtain ⟨hlen, halternation⟩ := h
  rw [Rules.alternation, Rules.alternation, List.append_eq_nil_iff, List.append_eq_nil_iff,
    alternation_add_two] at halternation
  rw [Rules.template, List.append_eq_nil_iff, EarlyError.when_eq_nil]
  exact ⟨hlen, halternation.2.2⟩

/-- A template is as clean without the first two of its elements. -/
theorem asClean_template {a b : Tree} {es : List Tree} :
    AsClean (.node .templateExpression [.absent, .list (a :: b :: es)])
      (.node .templateExpression [.absent, .list es]) := by
  intro c c' hc hu
  obtain ⟨herrors, hfields⟩ := clean_node.1 hu
  refine clean_node.2 ⟨?_, ?_⟩
  · have htemplate : Rules.template (a :: b :: es) = [] := Option.some.inj herrors
    exact congrArg some (template_tail htemplate)
  · intro n v hmem hv
    obtain ⟨rfl, rfl⟩ | ⟨rfl, rfl⟩ : (n = "tag" ∧ v = .absent) ∨
        (n = "elements" ∧ v = .list es) := by
      simpa [Kind.fieldNames, Kind.slots_eq, Kind.fields, named, Slot.of] using hmem
    · cases hv
    · obtain ⟨inner, hinner, hclean⟩ := hfields "elements" (.list (a :: b :: es))
        (List.mem_of_getElem? (i := 1) rfl) rfl
      cases hinner
      have hrest : Clean c.inherited (.list es) :=
        fun e he => hclean e (List.mem_cons_of_mem _ (List.mem_cons_of_mem _ he))
      exact ⟨_, rfl, (Trims.refl _).asClean _ _
        (hc.inherited.mono fun _ => not_losesLoop (by decide)) hrest⟩

/-- The template of a minimal script for one has no tag and one part. -/
theorem template_eq (h : Minimal .templateExpression t) {fs : List Frame} {fields : List Tree}
    (hfs : Positions fs) (ht : plugAll fs (.node .templateExpression fields) = t) :
    ∃ raw, fields = [.absent, .list [.node .templateElement [.str raw]]] := by
  obtain ⟨tag, elements, rfl, -, helements⟩ :=
    (fit_two rfl rfl).1 (FitsAt.isFit (h.fitsAt hfs ht))
  obtain ⟨es, rfl, hes⟩ := (fitsType_list rfl).1 helements
  have hpos : Positions (.field .templateExpression [] [.list es] :: fs) := .cons rfl hfs
  obtain rfl : tag = .absent :=
    h.field_eq_absent hpos ht rfl rfl (fun _ => rfl) (occursAround_kind _ _ _ _)
  obtain ⟨c, hclean, -⟩ := h.exists_clean (n := .nothing) hfs ht rfl (.inl rfl)
  have herrors : Rules.template es = [] := Option.some.inj (clean_node.1 hclean).1
  match es with
  | [] => cases herrors
  | [e] =>
    -- the only part is a text
    rw [Rules.template, List.append_eq_nil_iff, Rules.alternation, List.append_eq_nil_iff,
      EarlyError.when_eq_nil] at herrors
    have hkind : e.isKind .templateElement = true := by simpa using herrors.2.1
    obtain ⟨k, us, rfl, -, hus⟩ := (fitsType_union rfl).1 (hes e List.mem_cons_self)
    obtain rfl : k = .templateElement := Option.some.inj (beq_iff_eq.1 hkind)
    obtain ⟨raw, rfl, hraw⟩ := (fit_one rfl rfl).1 hus
    obtain ⟨raw, rfl⟩ := fitsType_string.1 hraw
    exact ⟨raw, rfl⟩
  | a :: b :: es =>
    have htemplate := h.fitsAt hfs ht
    have hrest : FieldsFit false .templateExpression Kind.templateExpression.slots
        [.absent, .list es] := by
      refine (fit_two rfl rfl).2 ⟨_, _, rfl, (fitsType_maybe rfl).2 (.inl rfl),
        (fitsType_list rfl).2 ⟨es, rfl, fun e he => hes e ?_⟩⟩
      exact List.mem_cons_of_mem _ (List.mem_cons_of_mem _ he)
    have hfit := htemplate.refill hrest
    refine (h.not_simplified hfs ht ?_ hfit (trims_of_inert hfs rfl rfl asClean_template hfit)
      (contains_plugAll fs (by simp))).elim
    have hwhole := (simplifications_whole (FitsAt.isFit htemplate)).1
    refine Series.mem_mapExcept hwhole (a := .list es) ?_ (newNode_of_fieldsFit rfl hrest)
    simp [elementsWithoutPairs, withoutPairs]

/-- A minimal script for a template has one without a tag and with one empty part. -/
theorem freeProgram_template (h : Minimal .templateExpression t)
    (hroot : t.isKind .script = true) : freeProgram .templateExpression = some t := by
  obtain ⟨fs, fields, hfs, ht⟩ := exists_frames_of_contains
    (show FitsAt false none t from h.isFit) h.contains
  obtain ⟨raw, rfl⟩ := h.template_eq hfs ht
  have hclosed : Closed (.node .templateExpression
    [.absent, .list [.node .templateElement [.str ""]]]) := fun _ => rfl
  have hraw : raw = "" := by
    by_cases hraw : raw = ""
    · exact hraw
    · have hpos : Positions (.item [] [] :: .field .templateExpression [.absent] [] :: fs) :=
        .cons rfl (.cons rfl hfs)
      have hempty : FieldsFit false .templateElement Kind.templateElement.slots [.str ""] :=
        (fit_one rfl rfl).2 ⟨_, rfl, fitsType_string.2 ⟨_, rfl⟩⟩
      have hwhole : FieldsFit false .templateExpression Kind.templateExpression.slots
          [.absent, .list [.node .templateElement [.str ""]]] := by
        refine (fit_two rfl rfl).2 ⟨_, _, rfl, (fitsType_maybe rfl).2 (.inl rfl),
          (fitsType_list rfl).2 ⟨_, rfl, fun e he => ?_⟩⟩
        obtain rfl := List.mem_singleton.1 he
        exact (fitsType_union rfl).2 ⟨_, _, rfl, rfl, hempty⟩
      have htrims : Trims
          (plugAll fs (.node .templateExpression
            [.absent, .list [.node .templateElement [.str raw]]])) _ :=
        trims_of_inert hfs rfl rfl (hclosed.asClean _) ((h.fitsAt hfs ht).refill hwhole)
      have hT : (plugAll fs (.node .templateExpression
          [.absent, .list [.node .templateElement [.str ""]]])).contains .templateExpression
          = true := contains_plugAll fs (by simp)
      refine (h.not_simplified (v := .node .templateElement [.str ""]) hpos ht ?_ ⟨rfl, hempty⟩
        htrims hT).elim
      have htext : (Tree.str raw).isText "" = false := by simpa [Tree.isText] using hraw
      simp only [simplifications, simplified, htext, newNode_of_fieldsFit rfl hempty]
      simp [one, Series.ofExcept]
  subst hraw
  rw [h.eq_script_expression hroot hclosed.needs rfl rfl (by simp) hfs ht]
  rfl

/-- There is one minimal script for a node that may stand anywhere. -/
theorem freeProgram_eq {T : Kind} (hT : (freeProgram T).isSome = true) (h : Minimal T t)
    (hroot : t.isKind .script = true) : freeProgram T = some t := by
  unfold freeProgram at hT
  split at hT
  · exact h.freeProgram_throw hroot
  · exact h.freeProgram_string hroot
  · exact h.freeProgram_template hroot
  · cases hT

end Minimal

end Whittle
