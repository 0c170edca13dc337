import Whittle.Proofs.Minimal.Edits

/-!
# Nothing can be lifted

In a minimal program the node that makes it minimal cannot be lifted further out, as long as it
is as clean where it would come to stand. So what surrounds it is as little as the grammar
allows.
-/

namespace Whittle

open Grammar Whittle.Language

/-- No node of an inert kind owns a list of statements. -/
theorem statementField?_inert {k : Kind} (hk : k.isInert = true) : k.statementField? = none := by
  have h : Kind.all.all (fun k => !k.isInert || k.statementField?.isNone) = true := by
    decide
  simpa [hk] using Kind.forall_of_all h k

/-- Frames with positions for holes are no node of a kind without positions. -/
theorem plugAll_ne_plain {l : Kind} (hl : l.slots.all (·.position.isNone) = true)
    {fs : List Frame} {u : Tree} {vs : List Tree} (hfs : Positions fs) (hne : fs ≠ []) :
    plugAll fs u ≠ .node l vs := by
  intro heq
  obtain rfl | ⟨gs, f, rfl⟩ := fs.eq_nil_or_concat
  · exact hne rfl
  · rw [List.concat_eq_append, plugAll_concat] at heq
    have hf := hfs f (by simp)
    cases f with
    | item before after => cases heq
    | field k before after =>
      cases heq
      obtain ⟨s, type, hs, hp⟩ := Frame.slot?_of_isPosition hf
      have hnone := List.all_eq_true.1 hl s (List.mem_of_getElem? hs)
      rw [hp] at hnone
      cases hnone

/-- A node of an inert kind cannot be lifted out of frames, if it is as clean as the frames
around it would be. -/
theorem Minimal.not_lifts {T : Kind} {t : Tree} (h : Minimal T t) {k : Kind}
    {fields : List Tree} {inner outer : List Frame} (hpos : Positions (inner ++ outer))
    (ht : plugAll (inner ++ outer) (.node k fields) = t) (hk : k.isInert = true)
    (hT : (Tree.node k fields).contains T = true) (hinner : inner ≠ []) (houter : outer ≠ [])
    (hclean : ∀ gs hs v, gs ++ hs = inner → v = .node k fields ∨
      k.isExpression = true ∧ v = .node .expressionStatement [.node k fields] →
      AsClean (plugAll gs (.node k fields)) v) (v : Tree) :
    ¬ Lifts k (.node k fields) (holeTypeOf false none outer) inner v := by
  intro hv
  have hm : k ≠ .esModule := by
    rintro rfl
    cases hk
  have hfit := (h.fitsAt hpos ht).isFit
  obtain ⟨r, hr, hinnermost⟩ := promotion_spec none hm hfit (inner ++ outer)
  cases r with
  | none => exact hinnermost inner outer v rfl hinner houter hv
  | some e =>
    obtain ⟨gs, outer', heq, hgs, houter', hpath, hlifts, hleast⟩ := hinnermost
    rw [List.nil_append] at hlifts
    have hle := hleast inner outer v rfl hinner houter hv
    -- the node comes out of no more frames than it could
    obtain ⟨hs, rfl⟩ : gs <+: inner :=
      List.prefix_of_prefix_length_le (heq ▸ List.prefix_append gs outer')
        (List.prefix_append inner outer) hle
    rw [heq] at ht hpos
    have hedit : e ∈ (edits none t).items := by
      refine h.mem_edits hpos ht (by simp) ?_
      obtain ⟨r', hr', hitems⟩ := exists_promotion hpos (ht ▸ h.isFit)
      rw [heq] at hr
      cases hr.symm.trans hr'
      rw [hitems]
      simp
    rw [plugAll_append] at ht
    have hpart := h.fitsAt hpos.right ht
    obtain ⟨f, fs, rfl⟩ := List.exists_cons_of_ne_nil houter'
    obtain ⟨type, htype, -⟩ :=
      (h.fitsAt hpos.right.tail ht).hole (hpos.right f List.mem_cons_self)
    change holeTypeOf false none (f :: fs) = some type at htype
    -- what the node becomes is of an inert kind, fits and is as clean
    obtain ⟨l, vs, hvalue, hl, htakes, hvs, hor⟩ : ∃ l vs, e.value = .node l vs ∧
        l.isInert = true ∧ type.required.takes l = true ∧ FieldsFit false l l.slots vs ∧
        (Tree.node l vs = .node k fields ∨ k.isExpression = true ∧
          Tree.node l vs = .node .expressionStatement [.node k fields]) := by
      rw [htype] at hlifts
      generalize e.value = value at hlifts
      cases hlifts with
      | self htakes => exact ⟨k, fields, rfl, hk, by simpa using htakes, hfit, .inl rfl⟩
      | statement hexp htakes _ =>
        exact ⟨_, _, rfl, rfl, by simpa using htakes, fieldsFit_expressionStatement hexp hfit,
          .inr ⟨hexp, rfl⟩⟩
      | block hfield _ _ _ =>
        rw [statementField?_inert hk] at hfield
        cases hfield
    have hvfit : FitsAt false (holeTypeOf false none (f :: fs)) (.node l vs) := by
      rw [htype]
      exact ⟨htakes, hvs⟩
    have hcleanv := hclean gs hs (.node l vs) rfl hor
    -- what stands around the node is a node that may be replaced
    obtain ⟨m, us, hnode⟩ : ∃ m us, plugAll gs (.node k fields) = .node m us := by
      obtain rfl | ⟨gs', g, rfl⟩ := gs.eq_nil_or_concat
      · exact absurd rfl hgs
      · rw [List.concat_eq_append, plugAll_concat] at hpart ⊢
        cases g with
        | field m before after => exact ⟨_, _, rfl⟩
        | item before after =>
          rw [htype] at hpart
          obtain ⟨_, rfl, -⟩ := hpart
          cases htakes
    rw [hnode] at ht hpart hcleanv
    rw [htype] at hpart
    have hreplaceable : m.isReplaceable = true := by
      rcases isReplaceable_of_hole htype hl htakes hpart.1 with hm | rfl
      · exact hm
      · exact absurd hnode (plugAll_ne_plain (by decide) hpos.left hgs)
    have hfalse := h.contains_of_edit hpos.right ht (v := .node l vs)
      (by rw [← hpath, ← hvalue]; exact hedit) hvfit
      (trims_of_inert hpos.right hreplaceable hl hcleanv hvfit)
    rw [contains_plugAll] at hfalse
    · cases hfalse
    · rcases hor with heq' | ⟨-, heq'⟩
      · rw [heq']
        exact hT
      · rw [heq', Tree.contains_node]
        simp only [List.any_cons, hT, Bool.true_or, Bool.or_true]

end Whittle
