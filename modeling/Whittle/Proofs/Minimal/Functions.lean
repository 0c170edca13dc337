import Whittle.Proofs.Minimal.Statements
import Whittle.Proofs.Validity.Nodes

/-!
# Functions with one statement

A `return` and an `await` stay in the function that they are in. Once nothing else is in it, a
function breaks no rule anywhere, in whichever of its forms it is written. So any form may give
way to a function expression, whatever is around it.
-/

namespace Whittle

open Grammar Whittle.Language Simplification

/-- A statement that has little more to it than a node of the kind, and whether the function
that it is in has to be asynchronous. -/
inductive Bound : Kind → Bool → Tree → Prop
  | leaves : Bound .returnStatement false (.node .returnStatement [.absent])
  | waits : Bound .awaitExpression true
      (.node .expressionStatement [.node .awaitExpression [.node .literalNullExpression []]])
  | gives : Bound .awaitExpression true
      (.node .returnStatement [.node .awaitExpression [.node .literalNullExpression []]])

/-- The body of a function with one statement. -/
def bodyOf (statement : Tree) : Tree := .node .functionBody [.list [], .list [statement]]

/-- The parameters of a function without any. -/
def noParameters : Tree := .node .formalParameters [.list [], .absent]

/-- The parameters of a function with one. -/
def oneParameter (param : Tree) : Tree := .node .formalParameters [.list [param], .absent]

/-- A parameter that is a name, or a name with `null` as its default. -/
inductive PlainParameter (name : String) : Tree → Prop
  | name : PlainParameter name (.node .bindingIdentifier [.str name])
  | withDefault : PlainParameter name (.node .bindingWithDefault
      [.node .bindingIdentifier [.str name], .node .literalNullExpression []])

variable {T : Kind} {a isAsync isGenerator : Bool} {s : Tree} {c c' : Context}

/-! ## Names -/

theorem binding_congr (c c' : Context) (name : String) (hstrict : c.strict = c'.strict)
    (hdefault : c.defaultName = c'.defaultName) :
    Rules.binding c name = Rules.binding c' name := by
  rw [Rules.binding, Rules.binding, hstrict, hdefault]

/-- Other names are allowed wherever code is no stricter. -/
theorem binding_of_strict {name : String} (hname : name ≠ defaultExportName)
    (hstrict : c'.strict = true → c.strict = true) (h : Rules.binding c name = []) :
    Rules.binding c' name = [] := by
  have hne : (name == defaultExportName) = false := by simpa using hname
  simp only [Rules.binding, hne, Bool.false_eq_true, if_false, List.append_eq_nil_iff,
    EarlyError.when_eq_nil, Bool.and_eq_false_iff] at h ⊢
  refine ⟨h.1, h.2.imp_left fun hc => ?_⟩
  cases hc' : c'.strict with
  | false => rfl
  | true => exact absurd (hstrict hc') (by simp [hc])

/-- The name of an expression is as clean as that of a declaration. -/
theorem NamesExpression.clean {name n : Tree} (h : NamesExpression name n)
    (hname : FitsType false (.node .bindingIdentifier) name) (hclean : Clean c name)
    (hstrict : c'.strict = true → c.strict = true) : Clean c' n := by
  obtain ⟨fields, rfl, hfields⟩ := fitsType_node.1 hname
  obtain ⟨text, rfl, htext⟩ := (fit_one rfl rfl).1 hfields
  obtain ⟨text, rfl⟩ := fitsType_string.1 htext
  rcases h with rfl | ⟨rfl, hne⟩
  · exact clean_leaf rfl
  · have hdefault : text ≠ defaultExportName := fun heq => hne (by rw [heq])
    exact clean_binding.2 (binding_of_strict hdefault hstrict (clean_binding.1 hclean))

/-- A plain parameter is clean if its name is. -/
theorem PlainParameter.clean_iff {name : String} {p : Tree} (hp : PlainParameter name p)
    (hc : c.defaultName = false) : Clean c p ↔ Rules.binding c name = [] := by
  cases hp with
  | name => exact clean_binding
  | withDefault =>
    rw [clean_two rfl rfl rfl, clean_binding, binding_congr c.inherited c _ rfl hc.symm]
    exact ⟨fun h => h.2.1, fun h => ⟨rfl, h, rfl⟩⟩

/-! ## Bodies -/

namespace Bound

theorem contains (hs : Bound T a s) : (bodyOf s).contains T = true := by
  cases hs <;> rfl

theorem lexicalNames? (hs : Bound T a s) (functionsAreVar : Bool) :
    [s].mapM (·.lexicalNames? functionsAreVar) = some [[]] := by
  cases hs <;> rfl

theorem itemVarNames? (hs : Bound T a s) : [s].mapM (·.itemVarNames? true) = some [[]] := by
  cases hs <;> rfl

/-- The statement is clean in the functions that it may be in. -/
theorem clean (hs : Bound T a s) (hfunction : c.inFunction = true)
    (hasync : a = true → c.isAsync = true) : Clean c s := by
  have hreturn : EarlyError.when (!c.inFunction) Violation.returnOutside.here = [] := by
    rw [hfunction]
    rfl
  have hawait : a = true → EarlyError.when (!c.isAsync) Violation.awaitOutside.here = [] := by
    intro ha
    rw [hasync ha]
    rfl
  cases hs with
  | leaves => exact (clean_one rfl rfl).2 ⟨congrArg some hreturn, clean_leaf rfl⟩
  | waits =>
    refine (clean_one rfl rfl).2 ⟨rfl, (clean_one rfl rfl).2 ⟨?_, rfl⟩⟩
    exact congrArg some (hawait rfl)
  | gives =>
    refine (clean_one rfl rfl).2 ⟨congrArg some hreturn, (clean_one rfl rfl).2 ⟨?_, rfl⟩⟩
    exact congrArg some (hawait rfl)

theorem clean_body (hs : Bound T a s) (hfunction : c.inFunction = true)
    (hasync : a = true → c.isAsync = true) : Clean c (bodyOf s) := by
  refine (clean_two rfl rfl rfl).2 ⟨?_, nofun, ?_⟩
  · exact (scopeErrors_eq_nil (hs.lexicalNames? true) hs.itemVarNames?).2 (by simp)
  · intro t ht
    obtain rfl := List.mem_singleton.1 ht
    have hclean := hs.clean (c := c.inherited) hfunction hasync
    cases hs <;> exact hclean

/-- A function with the body breaks no rule if its parameters have distinct names. -/
theorem function (hs : Bound T a s) {params : Tree} {names : List String} {simple unique : Bool}
    (hnames : params.parameterNames? = some names) (hnodup : names.Nodup)
    (hsimple : params.isSimple? = some simple) :
    Rules.function c unique params (bodyOf s) = some [] :=
  function_eq_nil hnames hnodup hsimple rfl
    ((redeclared_eq_nil (hs.lexicalNames? true)).2 (by simp))

end Bound

/-! ## Functions -/

theorem clean_noParameters : Clean c noParameters := rfl

/-- The context in the parameters of a function that does not begin with a directive. -/
def Context.inParameters (c : Context) : Context :=
  { inFunction := true, strict := c.strict }

namespace Bound

/-- A function expression with the body is clean if its name and parameters are. -/
theorem clean_functionExpression (hs : Bound T a s) {name params : Tree} {names : List String}
    {simple : Bool} (hasync : a = true → isAsync = true) (hname : Clean c.inherited name)
    (hnames : params.parameterNames? = some names) (hnodup : names.Nodup)
    (hsimple : params.isSimple? = some simple) (hparams : Clean c.inParameters params) :
    Clean c (.node .functionExpression
      [.bool isAsync, .bool isGenerator, name, params, bodyOf s]) := by
  have hstrict : (c.strict || false) = c.strict := Bool.or_false _
  refine (clean_five rfl rfl rfl rfl rfl rfl).2 ⟨hs.function hnames hnodup hsimple,
    clean_leaf rfl, clean_leaf rfl, hname, ?_, hs.clean_body rfl hasync⟩
  show Clean { inFunction := true, strict := c.strict || false } params
  rwa [hstrict]

/-- A function expression with the body, and with no name and no parameters, is clean
everywhere. -/
theorem closed_functionExpression (hs : Bound T a s) (hasync : a = true → isAsync = true) :
    Closed (.node .functionExpression
      [.bool isAsync, .bool isGenerator, .absent, noParameters, bodyOf s]) :=
  fun _ => hs.clean_functionExpression hasync (clean_leaf rfl) rfl List.nodup_nil rfl
    clean_noParameters

/-- The function expression of a function declaration is as clean. -/
theorem asClean_functionDeclaration (hs : Bound T a s) {name n : Tree}
    (hasync : a = true → isAsync = true) (hn : NamesExpression name n)
    (hname : FitsType false (.node .bindingIdentifier) name) :
    AsClean (.node .functionDeclaration
        [.bool isAsync, .bool isGenerator, name, noParameters, bodyOf s])
      (.node .expressionStatement [.node .functionExpression
        [.bool isAsync, .bool isGenerator, n, noParameters, bodyOf s]]) := by
  intro c c' hc hu
  obtain ⟨-, -, -, hclean, -⟩ := (clean_five rfl rfl rfl rfl rfl rfl).1 hu
  refine (clean_one rfl rfl).2 ⟨rfl, ?_⟩
  exact hs.clean_functionExpression hasync (hn.clean hname hclean hc.strict) rfl
    List.nodup_nil rfl clean_noParameters

end Bound

/-! ## Methods -/

/-- A method, a getter or a setter with the body, the names of its parameters, and the function
that it becomes as a property of an object. -/
inductive MethodOf (a : Bool) (s name : Tree) : List String → Tree → Tree → Prop
  | method {isAsync : Bool} (isGenerator : Bool) (hasync : a = true → isAsync = true) :
    MethodOf a s name []
      (.node .method [.bool isAsync, .bool isGenerator, name, noParameters, bodyOf s])
      (.node .functionExpression
        [.bool isAsync, .bool isGenerator, .absent, noParameters, bodyOf s])
  | getter (ha : a = false) :
    MethodOf a s name [] (.node .getter [name, bodyOf s])
      (.node .functionExpression [.bool false, .bool false, .absent, noParameters, bodyOf s])
  | setter {param : Tree} {p : String} (ha : a = false) (hp : PlainParameter p param) :
    MethodOf a s name [p] (.node .setter [name, param, bodyOf s])
      (.node .functionExpression
        [.bool false, .bool false, .absent, oneParameter param, bodyOf s])

theorem PlainParameter.parameterName? {p : String} {param : Tree} (hp : PlainParameter p param) :
    param.parameterName? = some p := by
  cases hp <;> rfl

namespace MethodOf

variable {name m f : Tree} {ps : List String}

theorem contains (hs : Bound T a s) (hm : MethodOf a s name ps m f) :
    m.contains T = true ∧ f.contains T = true := by
  cases hm <;> simp [hs.contains]

/-- As a property of an object a method is its function. -/
theorem propertyFunction (hm : MethodOf a s name ps m f) : propertyFunction m = .ok (some f) := by
  cases hm with
  | method isGenerator hasync => rfl
  | getter ha => rfl
  | setter ha hp => cases hp <;> rfl

/-- A method is clean if its name is and its parameters are. -/
theorem clean_iff (hs : Bound T a s) (hm : MethodOf a s name ps m f) :
    Clean c m ↔ Clean c.inherited name ∧ ∀ p ∈ ps, Rules.binding c.inParameters p = [] := by
  cases hm with
  | method isGenerator hasync =>
    rw [clean_five rfl rfl rfl rfl rfl rfl]
    constructor
    · rintro ⟨-, -, -, hname, -⟩
      exact ⟨hname, nofun⟩
    · rintro ⟨hname, -⟩
      exact ⟨hs.function rfl List.nodup_nil rfl, clean_leaf rfl, clean_leaf rfl, hname,
        clean_noParameters, hs.clean_body rfl hasync⟩
  | getter ha =>
    rw [clean_two rfl rfl rfl]
    constructor
    · rintro ⟨-, hname, -⟩
      exact ⟨hname, nofun⟩
    · rintro ⟨hname, -⟩
      exact ⟨rfl, hname, hs.clean_body rfl (by simp [ha])⟩
  | @setter param p ha hp =>
    have herrors : nodeErrors c .setter [name, param, bodyOf s] = some [] := by
      have hbody : Rules.redeclared [p] (bodyOf s) = some [] :=
        (redeclared_eq_nil (hs.lexicalNames? true)).2 (by simp)
      have hdirective : (bodyOf s).hasUseStrict? = some false := rfl
      show Rules.setter param (bodyOf s) = some []
      simp [Rules.setter, hp.parameterName?, hbody, hdirective]
    have hinner := binding_congr c.inParameters
      { inFunction := true, superProperty := true, superCall := c.derivedConstructor,
        strict := c.strict || false } p (Bool.or_false _).symm rfl
    rw [clean_three rfl rfl rfl rfl, hp.clean_iff rfl, List.forall_mem_singleton]
    constructor
    · rintro ⟨-, hname, hparam, -⟩
      exact ⟨hname, hinner.trans hparam⟩
    · rintro ⟨hname, hparam⟩
      exact ⟨herrors, hname, hinner.symm.trans hparam, hs.clean_body rfl (by simp [ha])⟩

/-- The function of a method is clean wherever the parameters of the method are. -/
theorem clean_function (hs : Bound T a s) (hm : MethodOf a s name ps m f)
    (hps : ∀ p ∈ ps, Rules.binding c.inParameters p = []) : Clean c f := by
  cases hm with
  | method isGenerator hasync => exact hs.closed_functionExpression hasync c
  | getter ha => exact hs.closed_functionExpression (by simp [ha]) c
  | @setter param p ha hp =>
    have hnames : (oneParameter param).parameterNames? = some [p] := by
      have hlist : [param].mapM Tree.parameterName? = some [p] := by
        simp [hp.parameterName?]
      exact hlist
    refine hs.clean_functionExpression (by simp [ha]) (clean_leaf rfl) hnames
      (List.nodup_singleton p) rfl ?_
    refine (clean_two rfl rfl rfl).2 ⟨rfl, ?_, clean_leaf rfl⟩
    intro t ht
    obtain rfl := List.mem_singleton.1 ht
    have hclean : Clean c.inParameters.inherited t :=
      (hp.clean_iff rfl).2 (hps p List.mem_cons_self)
    cases hp <;> exact hclean

/-- The names of parameters are allowed wherever code is no stricter. -/
theorem binding_eases {keep : Prop} (hc : Eases keep c c')
    (hps : ∀ p ∈ ps, Rules.binding c.inParameters p = []) :
    ∀ p ∈ ps, Rules.binding c'.inParameters p = [] := by
  intro p hp
  have hname := hps p hp
  exact @binding_of_strict c.inParameters _ _ (ne_defaultExportName rfl hname) hc.strict hname

/-- The function of a method is as clean as an object with the method. -/
theorem asClean_function (hs : Bound T a s) (hm : MethodOf a s name ps m f) :
    AsClean (.node .objectExpression [.list [m]]) f := by
  intro c c' hc hu
  obtain ⟨-, hlist⟩ := (clean_one rfl rfl).1 hu
  have hclean : Clean c.inherited m := by
    cases hm <;> exact hlist _ List.mem_cons_self
  exact hm.clean_function hs (binding_eases hc ((hm.clean_iff hs).1 hclean).2)

/-- A method is as clean in an object as in a class. -/
theorem asClean_object (hs : Bound T a s) (hm : MethodOf a s name ps m f)
    {className superClass : Tree} {isStatic : Bool} :
    AsClean (.node .classExpression
        [className, superClass, .list [.node .classElement [.bool isStatic, m]]])
      (.node .objectExpression [.list [m]]) := by
  intro c c' hc hu
  obtain ⟨-, -, -, helements⟩ := (clean_three rfl rfl rfl rfl).1 hu
  -- the method is in strict code, and whether it is a constructor does not matter
  obtain ⟨inner, hinner, hclean⟩ : ∃ inner : Context,
      inner.inherited = { c.inherited with strict := true } ∧ Clean inner m := by
    obtain ⟨-, hfields⟩ := clean_node.1
      (clean_list.1 helements .classElement [.bool isStatic, m] List.mem_cons_self)
    obtain ⟨inner, hinner, hclean⟩ := hfields "method" m
      (List.mem_of_getElem? (i := 1) rfl) (by cases hm <;> rfl)
    obtain ⟨_, -, hinner⟩ := Option.bind_eq_some_iff.1 hinner
    cases hinner
    exact ⟨_, rfl, hclean⟩
  obtain ⟨hname, hps⟩ := (hm.clean_iff hs).1 hclean
  have heases : Eases True inner.inherited c'.inherited :=
    hinner ▸ { (hc.mono fun _ hloop => nomatch hloop.1).inherited with strict := fun _ => rfl }
  have hmethod : Clean c'.inherited m := by
    refine (hm.clean_iff hs).2 ⟨?_, binding_eases heases hps⟩
    exact (Trims.refl name).asClean _ _ (heases.mono fun _ => trivial) hname
  refine (clean_one rfl rfl).2 ⟨rfl, fun t ht => ?_⟩
  obtain rfl := List.mem_singleton.1 ht
  cases hm <;> exact hmethod

end MethodOf

/-- The class expression of a class declaration is as clean. -/
theorem asClean_classDeclaration {name n superClass : Tree} {elements : List Tree}
    (hn : NamesExpression name n) (hname : FitsType false (.node .bindingIdentifier) name) :
    AsClean (.node .classDeclaration [name, superClass, .list elements])
      (.node .expressionStatement [.node .classExpression [n, superClass, .list elements]]) := by
  intro c c' hc hu
  obtain ⟨herrors, hclean, hsuper, helements⟩ := (clean_three rfl rfl rfl rfl).1 hu
  have hinner : Eases True { c.inherited with strict := true }
      { c'.inherited with strict := true } :=
    { (hc.mono fun _ hloop => nomatch hloop.1).inherited with strict := id }
  refine (clean_one rfl rfl).2 ⟨rfl, (clean_three rfl rfl rfl rfl).2 ⟨?_, ?_, ?_, ?_⟩⟩
  · exact herrors
  · exact hn.clean hname hclean fun _ => rfl
  · exact (Trims.refl superClass).asClean _ _ (hinner.mono fun _ => trivial) hsuper
  · refine (Trims.refl (.list elements)).asClean _ _ ?_ helements
    exact { hinner.mono fun _ => trivial with derivedClass := id }

end Whittle
