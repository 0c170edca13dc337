import Whittle.Proofs.Minimal.Bodies
import Whittle.Proofs.Preservation

/-!
# Minimal programs for what needs a function

A `return` and an `await` do not leave the function around them, so a minimal script for one of
them has a function. Any form but a function expression could be made simpler: a declaration and
an arrow function become function expressions; a method is first brought from a class into an
object. For each of the two there is one minimal script.
-/

namespace Whittle

open Grammar Whittle.Language Simplification

/-- The function expression with one statement. -/
def functionOf (isAsync : Bool) (statement : Tree) : Tree :=
  .node .functionExpression
    [.bool isAsync, .bool false, .absent, noParameters, bodyOf statement]

/-- The smallest script with a node of the kind, for kinds whose nodes need a function. -/
def boundProgram : Kind → Option Tree
  | .returnStatement => some (scriptOf (.node .expressionStatement
      [functionOf false (.node .returnStatement [.absent])]))
  | .awaitExpression => some (scriptOf (.node .expressionStatement
      [functionOf true (.node .expressionStatement
        [.node .awaitExpression [.node .literalNullExpression []]])]))
  | _ => none

namespace Minimal

variable {T : Kind} {a isAsync : Bool} {s t : Tree} {q : List Frame}

/-- In a script no simplification to a node of an inert kind is as clean and keeps the node. -/
theorem not_simplified_script (h : Minimal T t) (hroot : t.isKind .script = true) {k l : Kind}
    {us vs : List Tree} (hq : Positions q) (ht : plugAll q (.node k us) = t)
    (hv : .node l vs ∈ (simplifications k us).items) (hk : k.isReplaceable = true)
    (hl : l.isInert = true) (hclean : AsClean (.node k us) (.node l vs))
    (hT : (Tree.node l vs).contains T = true) : False := by
  have hmem : .node l vs ∈ ((siteOf q (.node k us)).replacements k us).items := by
    rw [siteOf, items_replacements _ (h.fitsAt hq ht).isFit]
    exact List.mem_append_left _ (List.mem_append_right _ hv)
  have hfit : FitsAt false (holeTypeOf false none q) (.node l vs) := by
    rcases fits_of_mem_replacements hq (ht ▸ h.isFit) hmem with hfit | hexport
    · exact hfit
    · obtain ⟨m, d, q', fields, rfl, hm, -⟩ := hexport
      have hnot := @not_exports t _ [] q' (.field m [] []) hroot h.isFit hq ht m rfl
      rw [hm] at hnot
      cases hnot
  exact h.not_simplified hq ht hv hfit (trims_of_inert hq hk hl hclean hfit)
    (contains_plugAll q hT)

/-- A function around whose parameters the node occurs has none. -/
theorem eq_noParameters (h : Minimal T t) {f : Frame} {ps : Tree} (hpos : Positions (f :: q))
    (ht : plugAll (f :: q) ps = t) (hfit : FitsType false (.node .formalParameters) ps)
    (hT : OccursAround T (f :: q)) : ps = noParameters := by
  obtain ⟨fields, rfl, hfields⟩ := fitsType_node.1 hfit
  obtain ⟨items, rest, rfl, hitems, -⟩ := (fit_two rfl rfl).1 hfields
  obtain ⟨items, rfl, -⟩ := (fitsType_list rfl).1 hitems
  have hitemsPos : Positions (.field .formalParameters [] [rest] :: f :: q) := .cons rfl hpos
  have hrestPos : Positions (.field .formalParameters [.list items] [] :: f :: q) :=
    .cons rfl hpos
  obtain rfl : rest = .absent :=
    h.field_eq_absent hrestPos ht rfl rfl (fun _ => trivial) (hT.cons _)
  obtain rfl : items = [] := by
    refine h.items_eq_nil hitemsPos ht (fun f hf => ?_) (hT.cons _)
    cases hf
    exact ⟨nofun, nofun⟩
  rfl

/-! ## Declarations and arrow functions -/

/-- The function is no declaration. -/
theorem not_functionDeclaration (h : Minimal T t) (hroot : t.isKind .script = true)
    (hs : Bound T a s) (hasync : a = true → isAsync = true) {isGenerator name ps : Tree}
    (hq : Positions q) (ht : plugAll q (.node .functionDeclaration
      [.bool isAsync, isGenerator, name, ps, bodyOf s]) = t) : False := by
  have hfit := (h.fitsAt hq ht).isFit
  obtain ⟨_, _, _, _, _, heq, -, hg, hname, hps, -⟩ := (fit_five rfl rfl).1 hfit
  cases heq
  obtain ⟨isGenerator, rfl⟩ := fitsType_boolean.1 hg
  have hpos : Positions (.field .functionDeclaration
      [.bool isAsync, .bool isGenerator, name] [bodyOf s] :: q) := .cons rfl hq
  obtain rfl := h.eq_noParameters hpos ht hps
    (occursAround_field q (by simp) hs.contains)
  obtain ⟨n, hn, -, hsimple⟩ := simplifications_functionDeclaration hfit
  refine h.not_simplified_script hroot hq ht (by rw [hsimple]; exact List.mem_cons_self) rfl rfl
    (hs.asClean_functionDeclaration hasync hn hname) ?_
  simp [hs.contains]

/-- The function is no arrow function. -/
theorem not_arrowExpression (h : Minimal T t) (hroot : t.isKind .script = true)
    (hs : Bound T a s) (hasync : a = true → isAsync = true) {ps body : Tree}
    (hbody : arrowBody body = .ok (bodyOf s)) (hT : body.contains T = true)
    (hq : Positions q)
    (ht : plugAll q (.node .arrowExpression [.bool isAsync, ps, body]) = t) : False := by
  have hfit := (h.fitsAt hq ht).isFit
  obtain ⟨_, _, _, heq, ha, hps, hb⟩ := (fit_three rfl rfl).1 hfit
  cases heq
  have hpos : Positions (.field .arrowExpression [.bool isAsync] [body] :: q) := .cons rfl hq
  obtain rfl := h.eq_noParameters hpos ht hps (occursAround_field q (by simp) hT)
  obtain ⟨b, hb', hbfit⟩ := arrowBody_of_fit hb
  cases hbody.symm.trans hb'
  obtain ⟨heq, -⟩ := functionExpression_of_fit ha (fitsType_boolean.2 ⟨false, rfl⟩)
    ((fitsType_maybe rfl).2 (.inl rfl)) (parametersOr_of_fit hps) hps hbfit
  have hclosed : Closed (.node .functionExpression
      [.bool isAsync, .bool false, .absent, noParameters, bodyOf s]) :=
    hs.closed_functionExpression hasync
  refine h.not_simplified_script hroot hq ht ?_ rfl rfl (hclosed.asClean _) ?_
  · simp only [simplifications, hbody, heq, bind, Except.bind]
    exact List.mem_cons_self
  · simp [hs.contains]

/-! ## Methods -/

section Method

variable {name m f : Tree} {ps : List String}

/-- A method in an object becomes a function. -/
theorem not_objectMethod (h : Minimal T t) (hroot : t.isKind .script = true)
    (hs : Bound T a s) (hm : MethodOf a s name ps m f) {before after : List Tree}
    (hpos : Positions (.item before after :: .field .objectExpression [] [] :: q))
    (ht : plugAll (.item before after :: .field .objectExpression [] [] :: q) m = t) :
    False := by
  have hitems : before ++ m :: after = [m] := by
    refine h.items_eq hpos.tail ht (fun g hg => ?_) (by simp) (hm.contains hs).1
    cases hg
    exact ⟨nofun, nofun⟩
  replace ht : plugAll q (.node .objectExpression [.list (before ++ m :: after)]) = t := ht
  rw [hitems] at ht
  have hfunction := hm.propertyFunction
  have hmem : f ∈ (simplifications .objectExpression [.list [m]]).items := by
    simp [simplifications, itemsOf, Series.mapList, hfunction]
  have hclean := hm.asClean_function hs
  have hT := (hm.contains hs).2
  cases hm <;> exact h.not_simplified_script hroot hpos.tail.tail ht hmem rfl rfl hclean hT

/-- A method in a class becomes one in an object. -/
theorem not_classMethod (h : Minimal T t) (hroot : t.isKind .script = true)
    (hs : Bound T a s) (hm : MethodOf a s name ps m f) {isStatic : Tree}
    (hpos : Positions (.field .classElement [isStatic] [] :: q))
    (ht : plugAll (.field .classElement [isStatic] [] :: q) m = t) : False := by
  replace ht : plugAll q (.node .classElement [isStatic, m]) = t := ht
  have helement := (h.fitsAt hpos.tail ht).isFit
  obtain ⟨_, _, heq, hstatic, -⟩ := (fit_two rfl rfl).1 helement
  cases heq
  obtain ⟨isStatic, rfl⟩ := fitsType_boolean.1 hstatic
  have hT : (Tree.node .classElement [.bool isStatic, m]).contains T = true := by
    simp [(hm.contains hs).1]
  have hholders : Kind.classElement.holders = [] ∧
      Kind.classElement.listHolders = [(.classDeclaration, 2), (.classExpression, 2)] := by
    decide
  have hne : q ≠ [] := by
    rintro rfl
    subst ht
    cases hroot
  have hfit : FitsAt false none (plugAll q (.node .classElement [.bool isStatic, m])) :=
    ht ▸ h.isFit
  rcases exists_holder hpos.tail hne hfit with
    ⟨l, before, after, q, rfl, hmem⟩ | ⟨b, a, l, before, after, q, rfl, hmem⟩
  · rw [hholders.1] at hmem
    cases hmem
  have hclass : (l = .classDeclaration ∨ l = .classExpression) ∧ before.length = 2 := by
    rw [hholders.2] at hmem
    simp only [List.mem_cons, Prod.mk.injEq, List.not_mem_nil, or_false] at hmem
    tauto
  obtain ⟨hl, hlength⟩ := hclass
  have hq : Positions (.field l before after :: q) := hpos.tail.tail
  have hitems : b ++ .node .classElement [.bool isStatic, m] :: a
      = [.node .classElement [.bool isStatic, m]] := by
    refine h.items_eq hq ht (fun g hg => ?_) (by simp) hT
    cases hg
    rcases hl with rfl | rfl <;> exact ⟨nofun, nofun⟩
  replace ht : plugAll q (.node l (before ++
      .list (b ++ .node .classElement [.bool isStatic, m] :: a) :: after)) = t := ht
  rw [hitems] at ht
  have hnode := (h.fitsAt hq.tail ht).isFit
  obtain ⟨className, superClass, rfl⟩ := List.length_eq_two.1 hlength
  rw [List.cons_append, List.cons_append, List.nil_append] at ht hnode
  rcases hl with rfl | rfl
  · obtain ⟨_, _, _, heq, hname, -⟩ := (fit_three rfl rfl).1 hnode
    cases heq
    obtain ⟨n, hn, -, hsimple⟩ := simplifications_classDeclaration hnode
    refine h.not_simplified_script hroot hq.tail ht (by rw [hsimple]; exact List.mem_cons_self)
      rfl rfl (asClean_classDeclaration hn hname) ?_
    simp [hT]
  · obtain ⟨_, _, _, heq, -⟩ := (fit_three rfl rfl).1 hnode
    cases heq
    obtain ⟨m', hm', hproperty⟩ :=
      elementMethod_of_fit (fitsType_node.2 ⟨_, rfl, helement⟩)
    cases hm'
    have hobject : FieldsFit false .objectExpression Kind.objectExpression.slots [.list [m]] :=
      (fit_one rfl rfl).2 ⟨_, rfl, (fitsType_list rfl).2
        ⟨[m], rfl, List.forall_mem_singleton.2 hproperty⟩⟩
    refine h.not_simplified_script hroot hq.tail ht (l := .objectExpression) ?_ rfl rfl
      (hm.asClean_object hs) ?_
    · have hmethods : [Tree.node .classElement [.bool isStatic, m]].mapM elementMethod
          = .ok [m] := rfl
      simp only [simplifications, itemsOf, hmethods, newNode_of_fieldsFit rfl hobject, bind,
        Except.bind]
      exact List.mem_cons_self
    · simp [(hm.contains hs).1]

/-- The function is no method, getter or setter. -/
theorem not_method (h : Minimal T t) (hroot : t.isKind .script = true) (hs : Bound T a s)
    (hm : MethodOf a s name ps m f) (hq : Positions q) (ht : plugAll q m = t) : False := by
  obtain ⟨k, fields, hnode, hk⟩ : ∃ k fields, m = .node k fields ∧
      (k = .method ∨ k = .getter ∨ k = .setter) := by
    cases hm <;> exact ⟨_, _, rfl, by simp⟩
  have hholders : k.holders = [(.classElement, 1)] ∧
      k.listHolders = [(.objectExpression, 0)] := by
    rcases hk with rfl | rfl | rfl <;> decide
  have hne : q ≠ [] := by
    rintro rfl
    rw [plugAll_nil, hnode] at ht
    subst ht
    obtain rfl := Option.some.inj (beq_iff_eq.1 hroot)
    simp at hk
  have hfit : FitsAt false none (plugAll q m) := ht ▸ h.isFit
  rw [hnode] at hfit
  rcases exists_holder hq hne hfit with
    ⟨l, before, after, q, rfl, hmem⟩ | ⟨b, a, l, before, after, q, rfl, hmem⟩
  · rw [hholders.1, List.mem_singleton, Prod.mk.injEq] at hmem
    obtain ⟨rfl, hlength⟩ := hmem
    obtain ⟨isStatic, rfl⟩ := List.length_eq_one_iff.1 hlength
    obtain ⟨_, _, heq, -⟩ := (fit_two rfl rfl).1 (FitsAt.isFit (hfit.holeAll q hq.tail))
    obtain ⟨-, heq⟩ := List.cons.inj heq
    obtain ⟨-, rfl⟩ := List.cons.inj heq
    exact h.not_classMethod hroot hs hm hq ht
  · rw [hholders.2, List.mem_singleton, Prod.mk.injEq] at hmem
    obtain ⟨rfl, hlength⟩ := hmem
    obtain rfl := List.eq_nil_of_length_eq_zero hlength
    obtain ⟨_, heq, -⟩ := (fit_one rfl rfl).1 (FitsAt.isFit (hfit.holeAll q hq.tail.tail))
    obtain ⟨-, rfl⟩ := List.cons.inj heq
    exact h.not_objectMethod hroot hs hm hq ht

end Method

/-! ## Function expressions -/

/-- A function expression has no name, no parameters and no flag that it does not need. -/
theorem eq_functionOf (h : Minimal T t) (hs : Bound T a s) (hasync : a = true → isAsync = true)
    {isGenerator name ps : Tree} (hq : Positions q) (ht : plugAll q (.node .functionExpression
      [.bool isAsync, isGenerator, name, ps, bodyOf s]) = t) :
    plugAll q (functionOf a s) = t := by
  obtain ⟨_, _, _, _, _, heq, -, hg, -, hps, -⟩ := (fit_five rfl rfl).1 (h.fitsAt hq ht).isFit
  cases heq
  obtain ⟨isGenerator, rfl⟩ := fitsType_boolean.1 hg
  have hname : Positions (.field .functionExpression [.bool isAsync, .bool isGenerator]
      [ps, bodyOf s] :: q) := .cons rfl hq
  obtain rfl := h.field_eq_absent hname ht rfl rfl (fun _ => trivial)
    (occursAround_field q (by simp) hs.contains)
  have hparams : Positions (.field .functionExpression
      [.bool isAsync, .bool isGenerator, .absent] [bodyOf s] :: q) := .cons rfl hq
  obtain rfl := h.eq_noParameters hparams ht hps (occursAround_field q (by simp) hs.contains)
  -- a flag could be cleared
  have hclosed : ∀ isAsync isGenerator, (a = true → isAsync = true) → Closed (.node
      .functionExpression [.bool isAsync, .bool isGenerator, .absent, noParameters, bodyOf s]) :=
    fun _ _ hasync => hs.closed_functionExpression hasync
  have hflag : ∀ {before after : List Tree},
      plugAll q (.node .functionExpression (before ++ .bool true :: after)) = t →
      Closed (.node .functionExpression (before ++ .bool false :: after)) →
      bodyOf s ∈ after → False := by
    intro before after ht hclosed hbody
    have hnode := h.fitsAt hq ht
    refine h.not_flagged hq ht (trims_of_inert hq rfl rfl (hclosed.asClean _)
      (hnode.refill (flagCleared_spec hnode.isFit).1)) ?_
    rw [Tree.contains_node, Bool.or_eq_true, List.any_eq_true]
    exact .inr ⟨bodyOf s, by simp [hbody], hs.contains⟩
  obtain rfl : isGenerator = false := by
    cases isGenerator with
    | false => rfl
    | true => exact (@hflag [.bool isAsync] _ ht (hclosed _ _ hasync) (by simp)).elim
  obtain rfl : isAsync = a := by
    cases isAsync with
    | false => cases a with
      | false => rfl
      | true => exact hasync rfl
    | true => cases a with
      | true => rfl
      | false => exact (@hflag [] _ ht (hclosed _ _ nofun) (by simp)).elim
  exact ht

/-- The parameter of a setter is as plain as it can be. -/
theorem exists_plainParameter (h : Minimal T t) {name param body : Tree} (hq : Positions q)
    (ht : plugAll q (.node .setter [name, param, body]) = t) (hbody : body.contains T = true) :
    ∃ p, PlainParameter p param := by
  obtain ⟨_, _, _, heq, -, hparam, -⟩ := (fit_three rfl rfl).1 (h.fitsAt hq ht).isFit
  cases heq
  obtain ⟨k, fields, rfl, hk, hfields⟩ := fitsType_kinds
    (show positionOf parameter = some _ from rfl) [.bindingIdentifier, .bindingWithDefault]
    (by decide) hparam
  simp only [List.mem_cons, List.not_mem_nil, or_false] at hk
  rcases hk with rfl | rfl
  · obtain ⟨_, rfl, hp⟩ := (fit_one rfl rfl).1 hfields
    obtain ⟨p, rfl⟩ := fitsType_string.1 hp
    exact ⟨p, .name⟩
  · obtain ⟨b, init, rfl, hb, hinit⟩ := (fit_two rfl rfl).1 hfields
    obtain ⟨k, us, rfl, hk, -⟩ := fitsType_expression.1 hinit
    have hpos : Positions (.field .bindingWithDefault [b] [] ::
        .field .setter [name] [body] :: q) := .cons rfl (.cons rfl hq)
    rw [h.eq_null hpos ht hk rfl ((occursAround_field q (by simp) hbody).cons _)]
    obtain ⟨k, us, rfl, hk, hus⟩ := fitsType_kinds
      (show positionOf binding = some _ from rfl) [.bindingIdentifier] (by decide) hb
    obtain rfl := List.mem_singleton.1 hk
    obtain ⟨_, rfl, hp⟩ := (fit_one rfl rfl).1 hus
    obtain ⟨p, rfl⟩ := fitsType_string.1 hp
    exact ⟨p, .withDefault⟩

/-- The function around the only statement is a function expression, and all there is. -/
theorem eq_script_function (h : Minimal T t) (hroot : t.isKind .script = true)
    (hs : Bound T a s) {f : Frame} (hf : OwnsBody isAsync f) (hasync : a = true → isAsync = true)
    (hpos : Positions (f :: q)) (ht : plugAll (f :: q) (bodyOf s) = t) :
    t = scriptOf (.node .expressionStatement [functionOf a s]) := by
  have hq := hpos.tail
  cases hf with
  | declaration _ isGenerator name ps =>
    exact (h.not_functionDeclaration hroot hs hasync hq ht).elim
  | expression _ isGenerator name ps =>
    have hclosed : Closed (functionOf a s) := hs.closed_functionExpression id
    refine h.eq_script_expression hroot hclosed.needs rfl rfl ?_ hq (h.eq_functionOf hs hasync hq ht)
    simp [hs.contains]
  | method _ isGenerator name ps =>
    replace ht : plugAll q (.node .method [.bool isAsync, isGenerator, name, ps, bodyOf s]) = t := ht
    obtain ⟨_, _, _, _, _, heq, -, hg, -, hps, -⟩ := (fit_five rfl rfl).1 (h.fitsAt hq ht).isFit
    cases heq
    obtain ⟨isGenerator, rfl⟩ := fitsType_boolean.1 hg
    have hparams : Positions (.field .method [.bool isAsync, .bool isGenerator, name]
        [bodyOf s] :: q) := .cons rfl hq
    obtain rfl := h.eq_noParameters hparams ht hps (occursAround_field q (by simp) hs.contains)
    exact (h.not_method hroot hs (.method isGenerator hasync) hq ht).elim
  | getter name => exact (h.not_method hroot hs (.getter (by simpa using hasync)) hq ht).elim
  | setter name param =>
    obtain ⟨p, hp⟩ := h.exists_plainParameter hq ht hs.contains
    exact (h.not_method hroot hs (.setter (by simpa using hasync) hp) hq ht).elim
  | arrow _ ps =>
    exact (h.not_arrowExpression hroot hs hasync rfl hs.contains hq ht).elim

/-- There is one minimal script for a node that needs a function. -/
theorem boundProgram_eq (hT : (boundProgram T).isSome = true) (h : Minimal T t)
    (hroot : t.isKind .script = true) : boundProgram T = some t := by
  unfold boundProgram at hT
  split at hT
  · obtain ⟨isAsync, f, q, hf, hpos, ht⟩ := h.exists_returnBody hroot
    rw [h.eq_script_function hroot .leaves hf nofun hpos ht]
    rfl
  · obtain ⟨f, q, hf, hpos, ht | ⟨ps, rfl, ht⟩⟩ := h.exists_awaitBody
    · rw [h.eq_script_function hroot .waits hf (fun _ => rfl) hpos ht]
      rfl
    · exact (h.not_arrowExpression hroot .gives (fun _ => rfl) rfl rfl hpos.tail ht).elim
  · cases hT

end Minimal

end Whittle
