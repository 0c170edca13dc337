import Whittle.Proofs.Sample.Placed
import Whittle.Sample.Expression

/-!
# Random expressions are placed

Every generator of expressions makes an expression that is placed in its scene, if the makers
that it gets its parts from do.
-/

namespace Whittle.Sample

open Grammar Whittle.Language

/-- Ten times the double, rounded to two places, is finite and not below zero, so it can be
written as a literal. -/
def RoundsToLiteral (y : Double) : Prop :=
  ((y.scale 10).roundPlaces 2).isFinite = true ∧ ((y.scale 10).roundPlaces 2).belowZero = false

/-- The doubles of the source round to literals. -/
def GivesLiterals {σ : Type} (rs : RandomSource σ) : Prop :=
  ∀ s, RoundsToLiteral (rs.unit s).1

/-- The makers give expressions that are placed. -/
def MakesExpressions {σ : Type} (m : Makers σ) : Prop :=
  ∀ levels c n, Yields n (m.expression levels c) (Placed (Agrees n c) expression)

/-! ## Types -/

theorem isUnion_argument : IsUnion Language.argument := rfl

theorem isUnion_memberObject : IsUnion memberObject := rfl

theorem isUnion_simpleTarget : IsUnion simpleTarget := rfl

/-- The type of what a template consists of. -/
def templatePart : TypeSpec := .union [expression, .node .templateElement]

theorem isUnion_templatePart : IsUnion templatePart := rfl

theorem argument_of_expression (k : Kind) (h : expression.hasMember k = true) :
    Language.argument.hasMember k = true := by
  simp [Language.argument, Spec.union, Spec.hasMember, Spec.anyHasMember, h]

theorem memberObject_of_expression (k : Kind) (h : expression.hasMember k = true) :
    memberObject.hasMember k = true := by
  simp [memberObject, Spec.union, Spec.hasMember, Spec.anyHasMember, h]

theorem templatePart_of_expression (k : Kind) (h : expression.hasMember k = true) :
    templatePart.hasMember k = true := by
  simp [templatePart, Spec.union, Spec.hasMember, Spec.anyHasMember, h]

variable {σ : Type} {rs : RandomSource σ} {m : Makers σ} {levels n : Nat} {c : Scene}

/-! ## Words -/

theorem yields_reference :
    Yields n (reference rs) fun t => ∃ s, t = .str s ∧ Rules.spelling s true = [] := by
  refine (yields_chooseText "a" otherIdentifiers).mono ?_
  rintro t ⟨s, hs, rfl⟩
  have hall : ∀ s ∈ "a" :: otherIdentifiers, Rules.spelling s true = [] := by decide
  exact ⟨s, rfl, hall s hs⟩

theorem yields_propertyText :
    Yields n (propertyText rs) fun t => ∃ s, t = .str s ∧ Rules.spelling s false = [] := by
  refine (yields_chooseText "p" otherProperties).mono ?_
  rintro t ⟨s, hs, rfl⟩
  have hall : ∀ s ∈ "p" :: otherProperties, Rules.spelling s false = [] := by decide
  exact ⟨s, rfl, hall s hs⟩

theorem yields_operator {words : List String} (h : words ≠ []) :
    Yields n (operator rs words) fun t => ∃ s ∈ words, t = .str s := by
  cases words with
  | nil => exact absurd rfl h
  | cons o os => exact yields_chooseText o os

/-! ## Expressions without parts -/

theorem yields_number (hrs : GivesLiterals rs) :
    Yields n (number rs) fun t => FitsType false .number t ∧ Rules.number t = some [] := by
  refine (yields_chance 80).bind fun b _ => .ite (fun _ => ?_) fun _ => ?_
  · refine (yields_upTo 100).bind fun i _ => .pure fun _ _ => ⟨(fitsType_leaf rfl).2 rfl, ?_⟩
    simp [Rules.number, EarlyError.when]
  · refine (yields_roll hrs).bind fun y hy => ?_
    obtain ⟨hfinite, hsign⟩ := hy
    refine .pure fun _ _ => ⟨(fitsType_leaf rfl).2 rfl, ?_⟩
    simp [Rules.number, EarlyError.when, hfinite, hsign]

theorem yields_pattern : Yields n (pattern rs) (Placed (Agrees n c) expression) := by
  refine (yields_chooseText _ _).bind fun text ⟨s, hs, htext⟩ => ?_
  refine (yields_flag 30).bind fun g ⟨bg, hg⟩ => ?_
  refine (yields_flag 30).bind fun i ⟨bi, hi⟩ => ?_
  refine (yields_flag 10).bind fun l ⟨bl, hl⟩ => ?_
  refine (yields_flag 10).bind fun d ⟨bd, hd⟩ => ?_
  refine (yields_flag 10).bind fun u ⟨bu, hu⟩ => ?_
  refine (yields_flag 10).bind fun y ⟨bs, hy⟩ => ?_
  subst htext hg hi hl hd hu hy
  have hall : ∀ s ∈ ["a", "b+", "[0-9]", "x|y"], s.isEmpty = false := by decide
  refine yields_plain isUnion_expression rfl (fun _ _ => rfl) (fun x _ => ?_) ?_
  · simp [nodeErrors, EarlyError.when, hall s hs]
  · exact .cons (.str s) (.cons (.bool bg) (.cons (.bool bi) (.cons (.bool bl)
      (.cons (.bool bd) (.cons (.bool bu) (.cons (.bool bs) .nil))))))

theorem yields_leaf (hrs : GivesLiterals rs) :
    Yields n (leaf rs) (Placed (Agrees n c) expression) := by
  refine yields_draw.bind fun r _ => ?_
  refine .ite (fun _ => ?_) fun _ => .ite (fun _ => ?_) fun _ => .ite (fun _ => ?_) fun _ =>
    .ite (fun _ => ?_) fun _ => .ite (fun _ => ?_) fun _ => .ite (fun _ => ?_) fun _ => ?_
  · refine yields_reference.bind fun t ⟨s, ht, hs⟩ => ?_
    subst ht
    exact yields_plain isUnion_expression rfl (fun _ _ => rfl)
      (fun _ _ => congrArg some hs) (.cons (.str s) .nil)
  · refine (yields_number hrs).bind fun t ⟨hfit, hnumber⟩ => ?_
    exact yields_plain isUnion_expression rfl (fun _ _ => rfl)
      (fun _ _ => hnumber) (.cons (.leaf rfl rfl hfit) .nil)
  · refine (yields_letters _ _ _).bind fun t ⟨s, ht⟩ => ?_
    subst ht
    exact yields_plain isUnion_expression rfl (fun _ _ => rfl) (fun _ _ => rfl)
      (.cons (.str s) .nil)
  · refine (yields_flag 50).bind fun t ⟨b, ht⟩ => ?_
    subst ht
    exact yields_plain isUnion_expression rfl (fun _ _ => rfl) (fun _ _ => rfl)
      (.cons (.bool b) .nil)
  · exact yields_plain isUnion_expression rfl (fun _ _ => rfl) (fun _ _ => rfl) .nil
  · exact yields_plain isUnion_expression rfl (fun _ _ => rfl) (fun _ _ => rfl) .nil
  · exact yields_pattern

theorem yields_super (c : Scene) :
    Yields n (node (σ := σ) .super []) (Placed (Agrees n c) memberObject) :=
  yields_plain isUnion_memberObject rfl (fun _ _ => rfl) (fun _ _ => rfl) .nil

/-! ## Expressions with parts -/

section Parts

variable (hm : MakesExpressions m)
include hm

theorem yields_part : Yields n (part m levels c) (Placed (Agrees n c) expression) :=
  hm (levels - 1) c n

theorem yields_binary : Yields n (binary rs m levels c) (Placed (Agrees n c) expression) := by
  refine Yields.bind (yields_part hm) fun left hleft => ?_
  refine (yields_operator (by decide)).bind fun o ⟨s, hs, ho⟩ => ?_
  refine Yields.bind (yields_part hm) fun right hright => ?_
  subst ho
  exact yields_plain isUnion_expression rfl (fun _ _ => rfl) (fun _ _ => rfl)
    (.cons hleft (.cons (.word hs) (.cons hright .nil)))

/-- Whatever takes expressions and more takes what an expression maker makes. -/
theorem yields_part_of {type : TypeSpec} (ht : IsUnion type)
    (hsub : ∀ k, expression.hasMember k = true → type.hasMember k = true) :
    Yields n (part m levels c) (Placed (Agrees n c) type) :=
  (yields_part hm).mono fun _ he => he.widen isUnion_expression ht hsub

theorem yields_argument :
    Yields n (argument rs m levels c) (Placed (Agrees n c) Language.argument) := by
  refine (yields_chance 10).bind fun b _ => .ite (fun _ => ?_) fun _ => ?_
  · refine Yields.bind (yields_part hm) fun e he => ?_
    exact yields_plain isUnion_argument rfl (fun _ _ => rfl) (fun _ _ => rfl)
      (.cons he .nil)
  · exact yields_part_of hm isUnion_argument argument_of_expression

theorem yields_arguments :
    Yields n (arguments rs m levels c) (Placed (Agrees n c) (.list Language.argument)) :=
  (yields_several 3 (yields_argument hm)).bind fun _ hargs =>
    .pure fun _ _ => .list isUnion_argument hargs

theorem yields_memberObject : Yields n (part m levels c) fun t =>
    Placed (Agrees n c) memberObject t ∧ t.isKind .super = false := by
  refine (yields_part hm).mono fun t ht => ⟨?_, ht.isKind_eq_false rfl⟩
  exact ht.widen isUnion_expression isUnion_memberObject memberObject_of_expression

theorem yields_callExpression :
    Yields n (callExpression rs m levels c) (Placed (Agrees n c) expression) := by
  refine Yields.bind (yields_memberObject hm) fun callee ⟨hcallee, hsuper⟩ => ?_
  refine Yields.bind (yields_arguments hm) fun args hargs => ?_
  refine yields_plain isUnion_expression rfl (fun _ _ => rfl) (fun x _ => ?_)
    (.cons hcallee (.cons hargs .nil))
  simp [nodeErrors, EarlyError.when, hsuper]

theorem yields_newExpression :
    Yields n (newExpression rs m levels c) (Placed (Agrees n c) expression) := by
  refine Yields.bind (yields_part hm) fun callee hcallee => ?_
  refine Yields.bind (yields_arguments hm) fun args hargs => ?_
  exact yields_plain isUnion_expression rfl (fun _ _ => rfl) (fun _ _ => rfl)
    (.cons hcallee (.cons hargs .nil))

theorem yields_staticMember :
    Yields n (staticMember rs m levels c) (Placed (Agrees n c) (.node .staticMemberExpression)) := by
  refine Yields.bind (yields_memberObject hm) fun object ⟨hobject, hsuper⟩ => ?_
  refine yields_propertyText.bind fun property ⟨s, ht, hs⟩ => ?_
  subst ht
  refine yields_node (placed_plain (fun _ _ => rfl) (fun x _ => ?_)
    (.cons hobject (.cons (.str s) .nil)))
  simp [nodeErrors, Rules.member, EarlyError.when, hsuper, hs]

theorem yields_computedMember :
    Yields n (computedMember m levels c) (Placed (Agrees n c) expression) := by
  refine Yields.bind (yields_memberObject hm) fun object ⟨hobject, hsuper⟩ => ?_
  refine Yields.bind (yields_part hm) fun e he => ?_
  refine yields_plain isUnion_expression rfl (fun _ _ => rfl) (fun x _ => ?_)
    (.cons hobject (.cons he .nil))
  simp [nodeErrors, Rules.member, EarlyError.when, hsuper]

theorem yields_target : Yields n (target rs m levels c) (Placed (Agrees n c) simpleTarget) := by
  refine yields_draw.bind fun r _ => .ite (fun _ => ?_) fun _ => .ite (fun _ => ?_) fun _ => ?_
  · refine yields_reference.bind fun t ⟨s, ht, hs⟩ => ?_
    subst ht
    exact yields_plain isUnion_simpleTarget rfl (fun _ _ => rfl)
      (fun _ _ => congrArg some hs) (.cons (.str s) .nil)
  · refine Yields.bind (yields_memberObject hm) fun object ⟨hobject, hsuper⟩ => ?_
    refine yields_propertyText.bind fun property ⟨s, ht, hs⟩ => ?_
    subst ht
    refine yields_plain isUnion_simpleTarget rfl (fun _ _ => rfl) (fun x _ => ?_)
      (.cons hobject (.cons (.str s) .nil))
    simp [nodeErrors, Rules.member, EarlyError.when, hsuper, hs]
  · refine Yields.bind (yields_memberObject hm) fun object ⟨hobject, hsuper⟩ => ?_
    refine Yields.bind (yields_part hm) fun e he => ?_
    refine yields_plain isUnion_simpleTarget rfl (fun _ _ => rfl) (fun x _ => ?_)
      (.cons hobject (.cons he .nil))
    simp [nodeErrors, Rules.member, EarlyError.when, hsuper]

theorem yields_assignment :
    Yields n (assignment rs m levels c) (Placed (Agrees n c) expression) := by
  refine Yields.bind (yields_target hm) fun t ht => ?_
  refine Yields.bind (yields_part hm) fun e he => ?_
  exact yields_plain isUnion_expression rfl (fun _ _ => rfl) (fun _ _ => rfl)
    (.cons ht (.cons he .nil))

theorem yields_compoundAssignment :
    Yields n (compoundAssignment rs m levels c) (Placed (Agrees n c) expression) := by
  refine Yields.bind (yields_target hm) fun t ht => ?_
  refine (yields_operator (by decide)).bind fun o ⟨s, hs, ho⟩ => ?_
  refine Yields.bind (yields_part hm) fun e he => ?_
  subst ho
  exact yields_plain isUnion_expression rfl (fun _ _ => rfl) (fun _ _ => rfl)
    (.cons ht (.cons (.word hs) (.cons he .nil)))

/-- In strict code, only a property is deleted. -/
theorem yields_unary : Yields n (unary rs m levels c) (Placed (Agrees n c) expression) := by
  refine (yields_operator (by decide)).bind fun o ⟨s, hs, ho⟩ => ?_
  subst ho
  refine .ite (fun _ => ?_) fun hdelete => ?_
  · refine Yields.bind (yields_staticMember hm) fun e he => ?_
    obtain ⟨fields, rfl, -⟩ := fitsType_node.1 he.1
    refine yields_plain isUnion_expression rfl (fun _ _ => rfl) (fun x _ => ?_)
      (.cons (.word hs) (.cons (he.member isUnion_expression rfl) .nil))
    simp [nodeErrors, EarlyError.when, Tree.isKind, Tree.kind?]
  · refine Yields.bind (yields_part hm) fun e he => ?_
    refine yields_plain isUnion_expression rfl (fun _ _ => rfl) (fun x hx => ?_)
      (.cons (.word hs) (.cons he .nil))
    have hstrict : (x.strict && s == "delete" && e.isKind .identifierExpression) = false := by
      rw [Bool.and_assoc, Bool.and_eq_false_iff]
      cases hxs : x.strict with
      | false => exact .inl rfl
      | true =>
        refine .inr (Bool.and_eq_false_iff.2 (.inl ?_))
        simpa [Tree.isText, hx.strict hxs] using hdelete
    exact congrArg some (EarlyError.when_eq_nil.2 hstrict)

theorem yields_update : Yields n (update rs m levels c) (Placed (Agrees n c) expression) := by
  refine (yields_flag 50).bind fun isPrefixed ⟨b, hb⟩ => ?_
  refine (yields_operator (by decide)).bind fun o ⟨s, hs, ho⟩ => ?_
  refine Yields.bind (yields_target hm) fun t ht => ?_
  subst hb ho
  exact yields_plain isUnion_expression rfl (fun _ _ => rfl) (fun _ _ => rfl)
    (.cons (.bool b) (.cons (.word hs) (.cons ht .nil)))

theorem yields_conditional :
    Yields n (conditional m levels c) (Placed (Agrees n c) expression) := by
  refine Yields.bind (yields_part hm) fun test htest => ?_
  refine Yields.bind (yields_part hm) fun consequent hconsequent => ?_
  refine Yields.bind (yields_part hm) fun alternate halternate => ?_
  exact yields_plain isUnion_expression rfl (fun _ _ => rfl) (fun _ _ => rfl)
    (.cons htest (.cons hconsequent (.cons halternate .nil)))

theorem yields_arrayElement :
    Yields n (arrayElement rs m levels c) (Placed (Agrees n c) (.maybe Language.argument)) := by
  refine yields_draw.bind fun r _ => .ite (fun _ => ?_) fun _ => .ite (fun _ => ?_) fun _ => ?_
  · exact .pure fun _ _ => .maybe isUnion_argument (.inl rfl)
  · refine Yields.bind (yields_part hm) fun e he => ?_
    refine Yields.maybe isUnion_argument (yields_plain isUnion_argument rfl
      (fun _ _ => rfl) (fun _ _ => rfl) (.cons he .nil))
  · exact Yields.maybe isUnion_argument (yields_part_of hm isUnion_argument argument_of_expression)

theorem yields_array : Yields n (array rs m levels c) (Placed (Agrees n c) expression) := by
  refine (yields_several 3 (yields_arrayElement hm)).bind fun es hes => ?_
  exact yields_plain isUnion_expression rfl (fun _ _ => rfl) (fun _ _ => rfl)
    (.cons (.list (positionOf_maybe isUnion_argument) hes) .nil)

/-! ### Templates -/

omit hm in
theorem yields_templateText (c : Scene) :
    Yields n (templateText rs) (Placed (Agrees n c) (.node .templateElement)) := by
  refine (yields_letters _ _ _).bind fun t ⟨s, ht⟩ => ?_
  subst ht
  exact yields_node (placed_plain (fun _ _ => rfl) (fun _ _ => rfl) (.cons (.str s) .nil))

/-- Expressions and texts in turn, as they stand after the first text of a template. -/
structure Pairs (n : Nat) (c : Scene) (es : List Tree) : Prop where
  placed : ∀ e ∈ es, Placed (Agrees n c) templatePart e
  even : es.length % 2 = 0
  alternation : ∀ i, i % 2 = 1 → Rules.alternation i es = []

omit hm in
theorem Pairs.cons {e t : Tree} {es : List Tree} (he : Placed (Agrees n c) expression e)
    (ht : Placed (Agrees n c) (.node .templateElement) t) (hes : Pairs n c es) :
    Pairs n c (e :: t :: es) where
  placed := List.forall_mem_cons.2
    ⟨he.widen isUnion_expression isUnion_templatePart templatePart_of_expression,
      List.forall_mem_cons.2 ⟨ht.member isUnion_templatePart rfl, hes.placed⟩⟩
  even := by
    have := hes.even
    simp only [List.length_cons]
    omega
  alternation i hi := by
    have htext : t.isKind .templateElement = true := by
      obtain ⟨fields, rfl, -⟩ := fitsType_node.1 ht.1
      rfl
    have hexpression := he.isKind_eq_false (k := .templateElement) rfl
    have hnext : (i + 1) % 2 = 0 := by omega
    have hrest := hes.alternation (i + 1 + 1) (by omega)
    simp [Rules.alternation, EarlyError.when, hexpression, htext, hi, hnext, hrest]

theorem yields_templatePairs (i : Nat) :
    Yields n (templatePairs rs m levels c i) (Pairs n c) := by
  induction i with
  | zero => exact .pure fun _ _ => ⟨nofun, rfl, fun _ _ => rfl⟩
  | succ i ih =>
    refine Yields.bind (yields_part hm) fun e he => ?_
    refine Yields.bind (yields_templateText c) fun t ht => ?_
    refine Yields.bind ih fun es hes => ?_
    exact .pure fun _ _ => .cons he ht hes

theorem yields_template : Yields n (template rs m levels c) (Placed (Agrees n c) expression) := by
  refine Yields.bind (yields_templateText c) fun first hfirst => ?_
  refine (yields_upTo 2).bind fun i _ => ?_
  refine Yields.bind (yields_templatePairs hm i) fun rest hrest => ?_
  refine Yields.bind (makes_perhaps 20 (yields_part hm)) fun tag htag => ?_
  have helements : ∀ e ∈ first :: rest, Placed (Agrees n c) templatePart e :=
    List.forall_mem_cons.2 ⟨hfirst.member isUnion_templatePart rfl, hrest.placed⟩
  refine yields_plain isUnion_expression rfl (fun _ _ => rfl) (fun x _ => ?_)
    (.cons (.maybe isUnion_expression htag) (.cons (.list isUnion_templatePart helements) .nil))
  obtain ⟨fields, rfl, -⟩ := fitsType_node.1 hfirst.1
  have heven := hrest.even
  have halternation := hrest.alternation 1 rfl
  have hodd : (rest.length + 1) % 2 ≠ 0 := by omega
  simp [nodeErrors, Rules.template, Rules.alternation, EarlyError.when, Tree.isKind, Tree.kind?,
    hodd, halternation]

/-! ### Expressions that the scene has to allow -/

theorem yields_yieldExpression (hc : c.isGenerator = true) :
    Yields n (yieldExpression rs m levels c) (Placed (Agrees n c) expression) := by
  refine Yields.bind (makes_perhaps 70 (yields_part hm)) fun e he => ?_
  refine yields_plain isUnion_expression rfl (fun _ _ => rfl) (fun x hx => ?_)
    (.cons (.maybe isUnion_expression he) .nil)
  simp [nodeErrors, EarlyError.when, hx.isGenerator hc]

theorem yields_awaitExpression (hc : c.isAsync = true) :
    Yields n (awaitExpression m levels c) (Placed (Agrees n c) expression) := by
  refine Yields.bind (yields_part hm) fun e he => ?_
  refine yields_plain isUnion_expression rfl (fun _ _ => rfl) (fun x hx => ?_)
    (.cons he .nil)
  simp [nodeErrors, EarlyError.when, hx.isAsync hc]

theorem yields_superCall (hc : c.superCall = true) :
    Yields n (superCall rs m levels c) (Placed (Agrees n c) expression) := by
  refine Yields.bind (yields_super c) fun callee hcallee => ?_
  refine Yields.bind (yields_arguments hm) fun args hargs => ?_
  refine yields_plain isUnion_expression rfl (fun _ _ => rfl) (fun x hx => ?_)
    (.cons hcallee (.cons hargs .nil))
  simp [nodeErrors, EarlyError.when, hx.superCall hc]

omit hm in
theorem yields_superMember (hc : c.superProperty = true) :
    Yields n (superMember rs) (Placed (Agrees n c) expression) := by
  refine Yields.bind (yields_super c) fun object hobject => ?_
  refine yields_propertyText.bind fun property ⟨s, ht, hs⟩ => ?_
  subst ht
  refine yields_plain isUnion_expression rfl (fun _ _ => rfl) (fun x hx => ?_)
    (.cons hobject (.cons (.str s) .nil))
  simp [nodeErrors, Rules.member, EarlyError.when, hx.superProperty hc, hs]

end Parts

end Whittle.Sample
