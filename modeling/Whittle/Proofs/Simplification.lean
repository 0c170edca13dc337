import Whittle.Proofs.Relief

/-!
# What simplifications do

The simplifications of a node that fits come about, fit too, are lighter, and are nodes of a
kind that stands wherever the kind of the first node does.
-/

namespace Whittle

open Grammar Whittle.Language Simplification

/-- A node of kind `l` may stand wherever one of kind `k` may. -/
def Replaces (l k : Kind) : Prop :=
  ∀ fs type, holeTypeOf true none fs = some type → type.required.takes k = true →
    type.required.takes l = true

theorem replaces_of_mem {l k : Kind} (h : (l, k) ∈ replacements) : Replaces l k := by
  have hall : forallHoleTypes true (fun t => replacements.all fun e =>
    !t.required.takes e.2 || t.required.takes e.1) = true := by decide
  intro fs type htype hk
  simpa [hk] using List.all_eq_true.1 (holds_of_holeType hall htype) (l, k) h

/-- A node that fits, is lighter than the node of kind `k` with the given fields, and may
stand in its place. -/
def Simpler (loose : Bool) (k : Kind) (fields : List Tree) (v : Tree) : Prop :=
  ∃ l fs, v = .node l fs ∧ FieldsFit loose l l.slots fs ∧
    (Tree.node l fs).weight < (Tree.node k fields).weight ∧ Replaces l k

variable {loose : Bool}

theorem whole_simplified {text : Tree} {simplest : String} {l : Kind} {vs : List Tree}
    (h : FieldsFit loose l l.slots vs) :
    (simplified text simplest (.ok (.node l vs))).Whole (Tree.IsFit loose) := by
  unfold simplified
  split
  · exact Series.whole_empty
  · exact Series.whole_ofExcept h

/-! ## Texts -/

theorem fits_text {k : Kind} {field : String} (hexp : k.exports = false)
    (hfields : k.fields = [named field .string]) (text : Tree) :
    (simplified text "" (newNode k [.str ""])).Whole (Tree.IsFit loose) := by
  have hfit : FieldsFit loose k k.slots [.str ""] :=
    (fit_one hexp hfields).2 ⟨_, rfl, fitsType_string.2 ⟨"", rfl⟩⟩
  rw [newNode_of_fieldsFit hexp hfit]
  exact whole_simplified hfit

theorem fits_regExp {fields : List Tree}
    (h : FieldsFit loose .literalRegExpExpression Kind.literalRegExpExpression.slots fields) :
    (simplifications .literalRegExpExpression fields).Whole (Tree.IsFit loose) := by
  rw [fieldsFit_iff_fitsType (.inr rfl)] at h
  cases h with
  | cons hpattern hflags =>
    rename_i flags
    have hfit : FieldsFit loose .literalRegExpExpression Kind.literalRegExpExpression.slots
        (.str simplestPattern :: flags) :=
      (fieldsFit_iff_fitsType (.inr rfl)).2 (.cons (fitsType_string.2 ⟨_, rfl⟩) hflags)
    exact whole_simplified hfit

/-! ## Members -/

/-- A member with a plain property name instead of any other. -/
theorem newNode_member {l : Kind} (hexp : l.exports = false)
    (hl : l.fields = [named "object" memberObject, named "property" .string]) {object : Tree}
    (ho : FitsType loose memberObject object) :
    newNode l [object, .str placeholderProperty]
        = .ok (.node l [object, .str placeholderProperty]) ∧
      FieldsFit loose l l.slots [object, .str placeholderProperty] := by
  have hfit : FieldsFit loose l l.slots [object, .str placeholderProperty] :=
    (fit_two hexp hl).2 ⟨_, _, rfl, ho, fitsType_string.2 ⟨_, rfl⟩⟩
  exact ⟨newNode_of_fieldsFit hexp hfit, hfit⟩

theorem fits_computed {k l : Kind} (hk : k.exports = false)
    (hkf : k.fields = [named "object" memberObject, named "expression" expression])
    (hl : l.exports = false)
    (hlf : l.fields = [named "object" memberObject, named "property" .string])
    {object property : Tree} (h : FieldsFit loose k k.slots [object, property]) :
    (one (newNode l [object, .str placeholderProperty])).Whole (Tree.IsFit loose) := by
  obtain ⟨_, _, heq, ho, -⟩ := (fit_two hk hkf).1 h
  cases heq
  obtain ⟨hnew, hfit⟩ := newNode_member hl hlf ho
  rw [hnew]
  exact Series.whole_ofExcept hfit

theorem fits_static {k : Kind} (hk : k.exports = false)
    (hkf : k.fields = [named "object" memberObject, named "property" .string])
    {object property : Tree} (h : FieldsFit loose k k.slots [object, property]) :
    (simplified property placeholderProperty
      (newNode k [object, .str placeholderProperty])).Whole (Tree.IsFit loose) := by
  obtain ⟨_, _, heq, ho, -⟩ := (fit_two hk hkf).1 h
  cases heq
  obtain ⟨hnew, hfit⟩ := newNode_member hk hkf ho
  rw [hnew]
  exact whole_simplified hfit

/-! ## Templates and switches -/

theorem fits_template {fields : List Tree}
    (h : FieldsFit loose .templateExpression Kind.templateExpression.slots fields) :
    (simplifications .templateExpression fields).Whole (Tree.IsFit loose) := by
  obtain ⟨tag, elements, rfl, htag, helements⟩ := (fit_two rfl rfl).1 h
  obtain ⟨items, rfl, hitems⟩ := (fitsType_list rfl).1 helements
  rw [simplifications, elementsWithoutPairs]
  have hpairs : (Series.ofList ((withoutPairs [] items).map .list) : Series EditFault Tree).Whole
      fun v => ∃ es ∈ withoutPairs [] items, v = .list es :=
    Series.whole_ofList fun v hv => by
      obtain ⟨es, hes, rfl⟩ := List.mem_map.1 hv
      exact ⟨es, hes, rfl⟩
  refine hpairs.mapExcept ?_
  rintro _ ⟨es, hes, rfl⟩
  have hsub := (sublist_of_mem_withoutPairs hes).1.subset
  have hfit : FieldsFit loose .templateExpression Kind.templateExpression.slots
      [tag, .list es] := by
    refine (fit_two rfl rfl).2 ⟨_, _, rfl, htag, (fitsType_list rfl).2 ⟨es, rfl, ?_⟩⟩
    exact fun e he => hitems e (hsub he)
  exact ⟨_, newNode_of_fieldsFit rfl hfit, hfit⟩

theorem fits_switch {fields : List Tree}
    (h : FieldsFit loose .switchStatementWithDefault Kind.switchStatementWithDefault.slots
      fields) :
    (simplifications .switchStatementWithDefault fields).Whole (Tree.IsFit loose) := by
  obtain ⟨discriminant, before, default, after, rfl, hd, hb, -, ha⟩ := (fit_four rfl rfl).1 h
  obtain ⟨before, rfl, hbefore⟩ := (fitsType_list rfl).1 hb
  obtain ⟨after, rfl, hafter⟩ := (fitsType_list rfl).1 ha
  have hfit : FieldsFit loose .switchStatement Kind.switchStatement.slots
      [discriminant, .list (before ++ after)] := by
    refine (fit_two rfl rfl).2 ⟨_, _, rfl, hd, (fitsType_list rfl).2 ⟨_, rfl, fun c hc => ?_⟩⟩
    exact (List.mem_append.1 hc).elim (hbefore c) (hafter c)
  simp only [simplifications, Tree.sum?_list, newNode_of_fieldsFit rfl hfit]
  exact Series.whole_ofExcept hfit

/-! ## Functions -/

theorem fits_noParameters : FitsType loose (.node .formalParameters)
    (.node .formalParameters [.list [], .absent]) :=
  fitsType_node.2 ⟨_, rfl, (fit_two rfl rfl).2
    ⟨_, _, rfl, (fitsType_list rfl).2 ⟨[], rfl, by simp⟩, (fitsType_maybe rfl).2 (.inl rfl)⟩⟩

theorem parametersOr_of_fit {params : Tree}
    (h : FitsType loose (.node .formalParameters) params) :
    parametersOr params = .ok params := by
  obtain ⟨fs, rfl, -⟩ := fitsType_node.1 h
  rfl

theorem parametersOr_absent :
    parametersOr .absent = .ok (.node .formalParameters [.list [], .absent]) := by
  obtain ⟨_, heq, hfit⟩ := fitsType_node.1 (@fits_noParameters false)
  cases heq
  exact newNode_of_fieldsFit rfl hfit

/-- A function expression is made of parts that fit. -/
theorem functionExpression_of_fit {isAsync isGenerator name params params' body : Tree}
    (ha : FitsType loose .boolean isAsync) (hg : FitsType loose .boolean isGenerator)
    (hn : FitsType loose (.maybe (.node .bindingIdentifier)) name)
    (hp : parametersOr params = .ok params')
    (hp' : FitsType loose (.node .formalParameters) params')
    (hb : FitsType loose (.node .functionBody) body) :
    functionExpression isAsync isGenerator name params body
        = .ok (.node .functionExpression [isAsync, isGenerator, name, params', body]) ∧
      FieldsFit loose .functionExpression Kind.functionExpression.slots
        [isAsync, isGenerator, name, params', body] := by
  have hfit : FieldsFit loose .functionExpression Kind.functionExpression.slots
      [isAsync, isGenerator, name, params', body] :=
    (fit_five rfl rfl).2 ⟨_, _, _, _, _, rfl, ha, hg, hn, hp', hb⟩
  refine ⟨?_, hfit⟩
  rw [functionExpression, hp]
  exact newNode_of_fieldsFit rfl hfit

/-- The body of an arrow function becomes the body of a function. -/
theorem arrowBody_of_fit {body : Tree}
    (h : FitsType loose (.union [.node .functionBody, expression]) body) :
    ∃ b, arrowBody body = .ok b ∧ FitsType loose (.node .functionBody) b := by
  obtain ⟨ms, hms⟩ : ∃ ms, positionOf (.union [.node .functionBody, expression])
      = some (.union ms) := ⟨_, rfl⟩
  obtain ⟨k, fs, rfl, hk, hfs⟩ := (fitsType_union hms).1 h
  by_cases hbody : k = .functionBody
  · subst hbody
    exact ⟨_, rfl, fitsType_node.2 ⟨fs, rfl, hfs⟩⟩
  · have hmembers : Kind.all.all (fun k =>
        (positionOf (.union [.node .functionBody, expression])).all fun t =>
          !t.takes k || k == .functionBody || k.isExpression) = true := by decide
    have hexp := Kind.forall_of_all hmembers k
    simp only [hms, Option.all_some, hk, Bool.not_true, Bool.false_or, Bool.or_eq_true,
      beq_iff_eq, hbody, false_or] at hexp
    have hret : FieldsFit loose .returnStatement Kind.returnStatement.slots [.node k fs] := by
      refine (fit_one rfl rfl).2 ⟨_, rfl, ?_⟩
      obtain ⟨ms', hms', htakes⟩ : ∃ ms, positionOf (.maybe expression)
          = some (.maybe (.union ms)) ∧ positionOf expression = some (.union ms) :=
        ⟨_, rfl, rfl⟩
      refine (fitsType_maybe hms').2 (.inr ⟨k, fs, rfl, ?_, hfs⟩)
      simpa [isExpression_eq, htakes] using hexp
    have hfb : FieldsFit loose .functionBody Kind.functionBody.slots
        [.list [], .list [.node .returnStatement [.node k fs]]] := by
      refine (fit_two rfl rfl).2 ⟨_, _, rfl, (fitsType_list rfl).2 ⟨[], rfl, by simp⟩,
        (fitsType_list rfl).2 ⟨_, rfl, fun w hw => ?_⟩⟩
      obtain rfl := List.mem_singleton.1 hw
      obtain ⟨ms, hms⟩ : ∃ ms, positionOf statement = some (.union ms) ∧
        (PositionType.union ms).takes Kind.returnStatement = true := ⟨_, rfl, rfl⟩
      exact (fitsType_union hms.1).2 ⟨_, _, rfl, hms.2, hret⟩
    have harrow : arrowBody (.node k fs) = .ok (.node .functionBody
        [.list [], .list [.node .returnStatement [.node k fs]]]) := by
      rw [arrowBody]
      · rw [newNode_of_fieldsFit rfl hret]
        exact newNode_of_fieldsFit rfl hfb
      · rintro rfl
        exact hbody rfl
    exact ⟨_, harrow, fitsType_node.2 ⟨_, rfl, hfb⟩⟩

theorem fits_arrow {fields : List Tree}
    (h : FieldsFit loose .arrowExpression Kind.arrowExpression.slots fields) :
    (simplifications .arrowExpression fields).Whole (Tree.IsFit loose) := by
  obtain ⟨isAsync, params, body, rfl, ha, hp, hb⟩ := (fit_three rfl rfl).1 h
  obtain ⟨b, hbody, hb'⟩ := arrowBody_of_fit hb
  obtain ⟨heq, hfit⟩ := functionExpression_of_fit ha
    (fitsType_boolean.2 ⟨false, rfl⟩) ((fitsType_maybe rfl).2 (.inl rfl))
    (parametersOr_of_fit hp) hp hb'
  simp only [simplifications, hbody, heq, bind, Except.bind]
  exact Series.whole_ofExcept hfit

/-- What becomes of the name of a declaration: the expression has no name or the same, unless
that is the name of a default export. -/
def NamesExpression (name n : Tree) : Prop :=
  n = .absent ∨ n = name ∧ name ≠ .node .bindingIdentifier [.str defaultExportName]

theorem expressionName_of_fit {name : Tree}
    (h : FitsType loose (.node .bindingIdentifier) name) :
    ∃ n, expressionName name = .ok n ∧ NamesExpression name n ∧
      FitsType loose (.maybe (.node .bindingIdentifier)) n := by
  obtain ⟨fs, rfl, hfs⟩ := fitsType_node.1 h
  obtain ⟨text, rfl, -⟩ := (fit_one rfl rfl).1 hfs
  have hchild : (Tree.node .bindingIdentifier [text]).child (.field "name") = .ok text := rfl
  simp only [expressionName, hchild]
  split
  · exact ⟨.absent, rfl, .inl rfl, (fitsType_maybe rfl).2 (.inl rfl)⟩
  · rename_i htext
    refine ⟨_, rfl, .inr ⟨rfl, ?_⟩, (fitsType_maybe rfl).2 (.inr ⟨_, _, rfl, rfl, hfs⟩)⟩
    intro heq
    cases heq
    simp [Tree.isText] at htext

/-- A function declaration becomes a function expression with the same parts. -/
theorem simplifications_functionDeclaration {isAsync isGenerator name params body : Tree}
    (h : FieldsFit loose .functionDeclaration Kind.functionDeclaration.slots
      [isAsync, isGenerator, name, params, body]) :
    ∃ n, NamesExpression name n ∧
      FieldsFit loose .functionExpression Kind.functionExpression.slots
        [isAsync, isGenerator, n, params, body] ∧
      simplifications .functionDeclaration [isAsync, isGenerator, name, params, body]
        = one (.ok (.node .expressionStatement [.node .functionExpression
            [isAsync, isGenerator, n, params, body]])) := by
  obtain ⟨_, _, _, _, _, heq, ha, hg, hn, hp, hb⟩ := (fit_five rfl rfl).1 h
  cases heq
  obtain ⟨n, hname, hor, hn'⟩ := expressionName_of_fit hn
  obtain ⟨heq, hfit⟩ := functionExpression_of_fit ha hg hn' (parametersOr_of_fit hp) hp hb
  refine ⟨n, hor, hfit, ?_⟩
  simp only [simplifications, hname, heq, bind, Except.bind,
    newNode_of_fieldsFit rfl (fieldsFit_expressionStatement rfl hfit)]

theorem fits_functionDeclaration {fields : List Tree}
    (h : FieldsFit loose .functionDeclaration Kind.functionDeclaration.slots fields) :
    (simplifications .functionDeclaration fields).Whole (Tree.IsFit loose) := by
  obtain ⟨isAsync, isGenerator, name, params, body, rfl, -⟩ := (fit_five rfl rfl).1 h
  obtain ⟨n, -, hfit, heq⟩ := simplifications_functionDeclaration h
  rw [heq]
  exact Series.whole_ofExcept (fieldsFit_expressionStatement rfl hfit)

/-! ## Classes and objects -/

/-- A class declaration becomes a class expression with the same parts. -/
theorem simplifications_classDeclaration {name superClass elements : Tree}
    (h : FieldsFit loose .classDeclaration Kind.classDeclaration.slots
      [name, superClass, elements]) :
    ∃ n, NamesExpression name n ∧
      FieldsFit loose .classExpression Kind.classExpression.slots [n, superClass, elements] ∧
      simplifications .classDeclaration [name, superClass, elements]
        = one (.ok (.node .expressionStatement [.node .classExpression
            [n, superClass, elements]])) := by
  obtain ⟨_, _, _, heq, hn, hs, he⟩ := (fit_three rfl rfl).1 h
  cases heq
  obtain ⟨n, hname, hor, hn'⟩ := expressionName_of_fit hn
  have hfit : FieldsFit loose .classExpression Kind.classExpression.slots
      [n, superClass, elements] := (fit_three rfl rfl).2 ⟨_, _, _, rfl, hn', hs, he⟩
  refine ⟨n, hor, hfit, ?_⟩
  simp only [simplifications, hname, bind, Except.bind, newNode_of_fieldsFit rfl hfit,
    newNode_of_fieldsFit rfl (fieldsFit_expressionStatement rfl hfit)]

theorem fits_classDeclaration {fields : List Tree}
    (h : FieldsFit loose .classDeclaration Kind.classDeclaration.slots fields) :
    (simplifications .classDeclaration fields).Whole (Tree.IsFit loose) := by
  obtain ⟨name, superClass, elements, rfl, -⟩ := (fit_three rfl rfl).1 h
  obtain ⟨n, -, hfit, heq⟩ := simplifications_classDeclaration h
  rw [heq]
  exact Series.whole_ofExcept (fieldsFit_expressionStatement rfl hfit)

/-- The method of an element of a class fits where methods do. -/
theorem elementMethod_of_fit {element : Tree}
    (h : FitsType loose (.node .classElement) element) :
    ∃ m, elementMethod element = .ok m ∧ FitsType loose objectProperty m := by
  obtain ⟨fs, rfl, hfs⟩ := fitsType_node.1 h
  obtain ⟨isStatic, method, rfl, -, hm⟩ := (fit_two rfl rfl).1 hfs
  have hchild : (Tree.node .classElement [isStatic, method]).child (.field "method")
      = .ok method := rfl
  refine ⟨method, by simp only [elementMethod, hchild], ?_⟩
  obtain ⟨ms, hms⟩ : ∃ ms, positionOf methodDefinition = some (.union ms) := ⟨_, rfl⟩
  obtain ⟨ms', hms'⟩ : ∃ ms, positionOf objectProperty = some (.union ms) := ⟨_, rfl⟩
  obtain ⟨k, fs, rfl, hk, hfs⟩ := (fitsType_union hms).1 hm
  have hmembers : (positionOf methodDefinition).all (fun t => (positionOf objectProperty).all
      fun t' => Kind.all.all fun k => !t.takes k || t'.takes k) = true := by
    decide
  rw [hms, hms', Option.all_some, Option.all_some] at hmembers
  have hk' := Kind.forall_of_all hmembers k
  simp only [hk, Bool.not_true, Bool.false_or] at hk'
  exact (fitsType_union hms').2 ⟨k, fs, rfl, hk', hfs⟩

theorem elementMethods_of_fit {elements : List Tree}
    (h : ∀ e ∈ elements, FitsType loose (.node .classElement) e) :
    ∃ ms, elements.mapM elementMethod = .ok ms ∧ ∀ m ∈ ms, FitsType loose objectProperty m := by
  induction elements with
  | nil => exact ⟨[], rfl, by simp⟩
  | cons e es ih =>
    obtain ⟨m, hm, hfit⟩ := elementMethod_of_fit (h e List.mem_cons_self)
    obtain ⟨ms, hms, hfits⟩ := ih fun e' he' => h e' (List.mem_cons_of_mem _ he')
    refine ⟨m :: ms, ?_, List.forall_mem_cons.2 ⟨hfit, hfits⟩⟩
    simp only [List.mapM_cons, hm, hms, bind, Except.bind, pure, Except.pure]

theorem fits_classExpression {fields : List Tree}
    (h : FieldsFit loose .classExpression Kind.classExpression.slots fields) :
    (simplifications .classExpression fields).Whole (Tree.IsFit loose) := by
  obtain ⟨name, superClass, elements, rfl, -, -, he⟩ := (fit_three rfl rfl).1 h
  obtain ⟨items, rfl, hitems⟩ := (fitsType_list rfl).1 he
  obtain ⟨ms, hms, hfits⟩ := elementMethods_of_fit hitems
  have hfit : FieldsFit loose .objectExpression Kind.objectExpression.slots [.list ms] :=
    (fit_one rfl rfl).2 ⟨_, rfl, (fitsType_list rfl).2 ⟨ms, rfl, hfits⟩⟩
  simp only [simplifications, itemsOf, hms, bind, Except.bind, newNode_of_fieldsFit rfl hfit]
  exact Series.whole_ofExcept hfit

/-- The function that a property is fits. -/
theorem propertyFunction_of_fit {p : Tree} (h : FitsType loose objectProperty p) :
    ∃ r, propertyFunction p = .ok r ∧ ∀ v ∈ r, v.IsFit loose := by
  obtain ⟨ms, hms⟩ : ∃ ms, positionOf objectProperty = some (.union ms) := ⟨_, rfl⟩
  obtain ⟨k, fs, rfl, hk, hfs⟩ := (fitsType_union hms).1 h
  have hmembers : (positionOf objectProperty).all (fun t => Kind.all.all fun k => !t.takes k ||
      [.method, .getter, .setter, .dataProperty, .shorthandProperty].contains k) = true := by
    decide
  rw [hms, Option.all_some] at hmembers
  have hk' := Kind.forall_of_all hmembers k
  simp only [hk, Bool.not_true, Bool.false_or, List.contains_iff_mem, List.mem_cons,
    List.not_mem_nil, or_false] at hk'
  have hfalse : FitsType loose .boolean (.bool false) := fitsType_boolean.2 ⟨false, rfl⟩
  have hanonymous : FitsType loose (.maybe (.node .bindingIdentifier)) .absent :=
    (fitsType_maybe rfl).2 (.inl rfl)
  rcases hk' with rfl | rfl | rfl | rfl | rfl
  · obtain ⟨isAsync, isGenerator, name, params, body, rfl, ha, hg, -, hp, hb⟩ :=
      (fit_five rfl rfl).1 hfs
    obtain ⟨heq, hfit⟩ := functionExpression_of_fit ha hg hanonymous (parametersOr_of_fit hp)
      hp hb
    simp only [propertyFunction, heq, bind, Except.bind]
    exact ⟨_, rfl, by simpa [Tree.IsFit] using hfit⟩
  · obtain ⟨name, body, rfl, -, hb⟩ := (fit_two rfl rfl).1 hfs
    obtain ⟨heq, hfit⟩ := functionExpression_of_fit hfalse hfalse hanonymous
      parametersOr_absent fits_noParameters hb
    simp only [propertyFunction, heq, bind, Except.bind]
    exact ⟨_, rfl, by simpa [Tree.IsFit] using hfit⟩
  · obtain ⟨name, param, body, rfl, -, hp, hb⟩ := (fit_three rfl rfl).1 hfs
    have hparams : FieldsFit loose .formalParameters Kind.formalParameters.slots
        [.list [param], .absent] := by
      refine (fit_two rfl rfl).2 ⟨_, _, rfl, (fitsType_list rfl).2 ⟨[param], rfl, ?_⟩,
        (fitsType_maybe rfl).2 (.inl rfl)⟩
      intro w hw
      obtain rfl := List.mem_singleton.1 hw
      exact hp
    obtain ⟨heq, hfit⟩ := functionExpression_of_fit hfalse hfalse hanonymous
      (parametersOr_of_fit (fitsType_node.2 ⟨_, rfl, hparams⟩))
      (fitsType_node.2 ⟨_, rfl, hparams⟩) hb
    simp only [propertyFunction, newNode_of_fieldsFit rfl hparams, heq, bind, Except.bind]
    exact ⟨_, rfl, by simpa [Tree.IsFit] using hfit⟩
  · exact ⟨none, rfl, by simp⟩
  · exact ⟨none, rfl, by simp⟩

theorem fits_object {fields : List Tree}
    (h : FieldsFit loose .objectExpression Kind.objectExpression.slots fields) :
    (simplifications .objectExpression fields).Whole (Tree.IsFit loose) := by
  obtain ⟨properties, rfl, hp⟩ := (fit_one rfl rfl).1 h
  obtain ⟨items, rfl, hitems⟩ := (fitsType_list rfl).1 hp
  have hwhole : (Series.mapList propertyFunction items).Whole fun r => ∀ v ∈ r, v.IsFit loose :=
    Series.whole_mapList fun p hp => propertyFunction_of_fit (hitems p hp)
  simp only [simplifications, itemsOf]
  refine ⟨hwhole.1, fun v hv => ?_⟩
  obtain ⟨r, hr, hv⟩ := List.mem_filterMap.1 hv
  exact hwhole.2 r hr v hv

/-! ## All simplifications -/

/-- Every simplification of a node that fits comes about and fits. -/
theorem simplifications_fit {k : Kind} {fields : List Tree} (h : FieldsFit loose k k.slots fields) :
    (simplifications k fields).Whole (Tree.IsFit loose) := by
  cases k
  case directive | templateElement | literalStringExpression | staticPropertyName =>
    obtain ⟨text, rfl, -⟩ := (fit_one rfl rfl).1 h
    exact fits_text rfl rfl text
  case literalRegExpExpression => exact fits_regExp h
  case computedMemberExpression =>
    obtain ⟨object, property, rfl, -, -⟩ := (fit_two rfl rfl).1 h
    exact fits_computed rfl rfl (l := .staticMemberExpression) rfl rfl h
  case computedMemberAssignmentTarget =>
    obtain ⟨object, property, rfl, -, -⟩ := (fit_two rfl rfl).1 h
    exact fits_computed rfl rfl (l := .staticMemberAssignmentTarget) rfl rfl h
  case staticMemberExpression | staticMemberAssignmentTarget =>
    obtain ⟨object, property, rfl, -, -⟩ := (fit_two rfl rfl).1 h
    exact fits_static rfl rfl h
  case templateExpression => exact fits_template h
  case switchStatementWithDefault => exact fits_switch h
  case arrowExpression => exact fits_arrow h
  case functionDeclaration => exact fits_functionDeclaration h
  case classDeclaration => exact fits_classDeclaration h
  case classExpression => exact fits_classExpression h
  case objectExpression => exact fits_object h
  all_goals exact Series.whole_empty

/-- Every simplification of a node that fits comes about, fits, is lighter and may stand in
the node's place. -/
theorem simplifications_whole {k : Kind} {fields : List Tree}
    (h : FieldsFit loose k k.slots fields) :
    (simplifications k fields).Whole (Simpler loose k fields) := by
  obtain ⟨hfault, hfits⟩ := simplifications_fit h
  refine ⟨hfault, fun v hv => ?_⟩
  have hfit := hfits v hv
  obtain ⟨l, vs, rfl, hrelief⟩ := simplifications_relieve hv
  exact ⟨l, vs, rfl, hfit, hrelief.lighter, replaces_of_mem hrelief.mem⟩

end Whittle
