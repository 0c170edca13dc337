import Whittle.Proofs.Sample.Expression
import Whittle.Proofs.Sample.Scopes
import Whittle.Sample.Function

/-!
# Random functions and classes are placed

A function binds its parameters before its body is made, so its body declares other names. A
class has at most one constructor, which calls `super` only if the class extends another one.
-/

namespace Whittle.Sample

open Grammar Whittle.Language

/-- The makers give statements that are placed and declare names of their own. -/
def MakesStatements {σ : Type} (m : Makers σ) : Prop :=
  ∀ levels c declarations n,
    Makes n (m.statement levels c declarations) (MadeStatement declarations c n)

variable {σ : Type} {rs : RandomSource σ} {m : Makers σ} {levels n k : Nat} {c : Scene}
  {C : Context → Prop}

/-! ## Bindings -/

/-- A binding of the name. -/
def bindingOf (s : String) : Tree := .node .bindingIdentifier [.str s]

/-- A name that was handed out may be bound anywhere. -/
theorem placed_bindingOf {s : String} (hs : s ∈ handedOut n k) :
    Placed C (.node .bindingIdentifier) (bindingOf s) := by
  obtain ⟨i, -, -, rfl⟩ := hs
  refine placed_node (.cons (.leaf (fitsType_string.2 ⟨_, rfl⟩) rfl) .nil) fun x _ => ?_
  exact congrArg some (binding_numbered x)

theorem makes_binding :
    Makes n (binding (σ := σ)) fun k t => ∃ s ∈ handedOut n k, t = bindingOf s := by
  refine (makes_fresh "v").bind fun s k hk hs => ?_
  have hs' : s ∈ handedOut n k := hs
  refine Makes.mono (yields_self (placed_bindingOf (C := fun _ => True) hs')) ?_
  rintro k' t hk' rfl
  exact ⟨s, handedOut_mono le_rfl hk' hs', rfl⟩

theorem yields_optionalName :
    Yields n (perhaps rs 30 binding) (Placed C (.maybe (.node .bindingIdentifier))) := by
  refine (makes_perhaps 30 makes_binding).mono ?_
  rintro k t - (rfl | ⟨s, hs, rfl⟩)
  · exact .maybe (isUnion_node _) (.inl rfl)
  · exact .maybe (isUnion_node _) (.inr (placed_bindingOf hs))

/-- Things that bind one name each bind distinct ones. -/
theorem Run.names {g : Tree → Option String} {items : List Tree}
    (h : Run (fun n k t => ∃ s ∈ handedOut n k, g t = some s) n k items) :
    ∃ names, items.mapM g = some names ∧ names.Nodup ∧ ∀ s ∈ names, s ∈ handedOut n k := by
  induction h with
  | nil _ => exact ⟨[], rfl, .nil, nofun⟩
  | @cons n m k t ts hn ht hts ih =>
    obtain ⟨s, hs, hg⟩ := ht
    obtain ⟨names, hnames, hnodup, hmem⟩ := ih
    refine ⟨s :: names, by simp [hg, hnames], List.nodup_cons.2 ⟨fun hsn => ?_, hnodup⟩, ?_⟩
    · exact Set.disjoint_left.1 (disjoint_handedOut n m k) hs (hmem s hsn)
    · exact List.forall_mem_cons.2 ⟨handedOut_mono le_rfl hts.le hs,
        fun s hs => handedOut_mono hn le_rfl (hmem s hs)⟩

section Functions

variable (hm : MakesExpressions m) (hs : MakesStatements m)

/-! ## Parameters -/

theorem isUnion_binding : IsUnion Language.binding := rfl

theorem isUnion_parameter : IsUnion Language.parameter := rfl

include hm in
theorem makes_parameter : Makes n (parameter rs m levels c) fun k t =>
    Placed (Agrees n c) Language.parameter t ∧ ∃ s ∈ handedOut n k, t.parameterName? = some s := by
  have hplain : Makes n (binding (σ := σ)) fun k t =>
      Placed (Agrees n c) Language.parameter t ∧
        ∃ s ∈ handedOut n k, t.parameterName? = some s := by
    refine makes_binding.mono ?_
    rintro k t - ⟨s, hs, rfl⟩
    exact ⟨(placed_bindingOf hs).member isUnion_parameter rfl, s, hs, rfl⟩
  refine .ite (fun _ => hplain) fun _ => ?_
  refine (yields_chance 20).bind fun b _ => .ite (fun _ => ?_) fun _ => hplain
  refine makes_binding.bind ?_
  rintro _ k hk ⟨s, hs, rfl⟩
  refine Yields.bind ((yields_part hm).later hk) fun e he => ?_
  have hnode : Placed (Agrees n c) (.node .bindingWithDefault)
      (.node .bindingWithDefault [bindingOf s, e]) :=
    placed_plain (fun _ _ => rfl) (fun _ _ => rfl)
      (.cons ((placed_bindingOf hs).member isUnion_binding rfl) (.cons he .nil))
  refine Makes.mono (yields_self hnode) ?_
  rintro k' t hk' rfl
  exact ⟨hnode.member isUnion_parameter rfl, s, handedOut_mono le_rfl hk' hs, rfl⟩

/-- Formal parameters with distinct names, of those that are handed out while they are made. -/
structure MadeParameters (c : Scene) (n k : Nat) (t : Tree) : Prop where
  placed : Placed (Agrees n c) (.node .formalParameters) t
  names : ∃ names, t.parameterNames? = some names ∧ names.Nodup ∧ ∀ s ∈ names, s ∈ handedOut n k
  simple : ∃ b, t.isSimple? = some b

/-- A rest parameter comes last, though its name is handed out first. -/
theorem parameterNames?_formalParameters {j : Nat} {items : List Tree} {rest : Tree}
    {names : List String} (hj : n ≤ j) (hk : j ≤ k)
    (hrest : rest = .absent ∨ ∃ s ∈ handedOut n j, rest = bindingOf s)
    (hitems : items.mapM Tree.parameterName? = some names) (hnodup : names.Nodup)
    (hmem : ∀ s ∈ names, s ∈ handedOut j k) :
    ∃ names, (Tree.node .formalParameters [.list items, rest]).parameterNames? = some names ∧
      names.Nodup ∧ ∀ s ∈ names, s ∈ handedOut n k := by
  have hwithin : ∀ s ∈ names, s ∈ handedOut n k := fun s hs =>
    handedOut_mono hj le_rfl (hmem s hs)
  obtain rfl | ⟨s, hs, rfl⟩ := hrest
  · exact ⟨names, hitems, hnodup, hwithin⟩
  · refine ⟨names ++ [s], ?_, ?_, ?_⟩
    · simp [Tree.parameterNames?, bindingOf, Tree.bindingName?, hitems]
    · refine List.nodup_append.2 ⟨hnodup, List.nodup_singleton s, ?_⟩
      rintro _ hname t ht rfl
      obtain rfl := List.mem_singleton.1 ht
      exact Set.disjoint_left.1 (disjoint_handedOut n j k) hs (hmem _ hname)
    · intro t ht
      obtain ht | ht := List.mem_append.1 ht
      · exact hwithin t ht
      · obtain rfl := List.mem_singleton.1 ht
        exact handedOut_mono le_rfl hk hs

include hm in
theorem makes_parameters : Makes n (parameters rs m levels c) (MadeParameters c n) := by
  refine (makes_perhaps 15 makes_binding).bind fun rest j hj hrest => ?_
  refine (makes_several 2 fun _ _ => makes_parameter hm).bind fun items k hk hitems => ?_
  have hplaced : ∀ t ∈ items, Placed (Agrees n c) Language.parameter t := by
    intro t ht
    obtain ⟨n', k', hn', -, ht, -⟩ := hitems.forall_mem ht
    exact ht.sooner (hj.trans hn')
  have hplacedRest : Placed (Agrees n c) (.maybe Language.binding) rest := by
    refine .maybe isUnion_binding (hrest.imp_right ?_)
    rintro ⟨s, hs, rfl⟩
    exact (placed_bindingOf hs).member isUnion_binding rfl
  have hnode : Placed (Agrees n c) (.node .formalParameters)
      (.node .formalParameters [.list items, rest]) :=
    placed_plain (fun _ _ => rfl) (fun _ _ => rfl)
      (.cons (.list isUnion_parameter hplaced) (.cons hplacedRest .nil))
  obtain ⟨names, hnames, hnodup, hmem⟩ := (hitems.mono fun _ _ _ h => h.2).names
  refine Makes.mono (yields_self hnode) ?_
  rintro k' t hk' rfl
  obtain ⟨names, hnames, hnodup, hmem⟩ :=
    parameterNames?_formalParameters hj hk hrest hnames hnodup hmem
  exact ⟨hnode, ⟨names, hnames, hnodup, fun s hs => handedOut_mono le_rfl hk' (hmem s hs)⟩, _, rfl⟩

/-! ## Bodies -/

/-- A function body without directives, the statements of which declare names of those that are
handed out while it is made. -/
inductive MadeBody (c : Scene) (n k : Nat) : Tree → Prop
  | intro {items : List Tree} (h : MadeStatements c n k items) :
    MadeBody c n k (.node .functionBody [.list [], .list items])

include hs in
theorem makes_statementList : Makes n (statementList rs m levels c) fun k t =>
    ∃ items, t = .list items ∧ MadeStatements c n k items := by
  refine (makes_several 3 fun _ _ => hs _ _ _ _).bind fun items k hk hitems => ?_
  exact .pure fun k' hk' => ⟨items, rfl, .of_run (hitems.extend hk')⟩

theorem MadeBody.placed {t : Tree} (h : MadeBody c n k t) :
    Placed (Agrees n c) (.node .functionBody) t := by
  obtain ⟨hitems⟩ := h
  refine placed_plain (fun _ _ => rfl) (fun _ _ => hitems.declares.scopeErrors true) ?_
  exact .cons (.list (isUnion_node _) nofun) (.cons hitems.list .nil)

theorem MadeBody.directive {t : Tree} (h : MadeBody c n k t) : t.hasUseStrict? = some false := by
  obtain ⟨-⟩ := h
  rfl

include hs in
theorem makes_functionBody : Makes n (functionBody rs m levels c) (MadeBody c n) := by
  refine (makes_statementList hs).bind ?_
  rintro _ k hk ⟨items, rfl, hitems⟩
  refine Makes.mono (yields_self (MadeBody.intro hitems).placed) ?_
  rintro k' t hk' rfl
  exact .intro (hitems.mono hk')

/-- A body does not declare again what was handed out before. -/
theorem MadeBody.redeclared {t : Tree} {j : Nat} {names : List String} (h : MadeBody c n k t)
    (hnames : ∀ s ∈ names, s ∈ handedOut j n) : Rules.redeclared names t = some [] := by
  obtain ⟨hitems⟩ := h
  obtain ⟨ls, vs, hls, -, hintroduces⟩ := hitems.declares true
  refine (redeclared_eq_nil hls).2 fun s hs hmem => ?_
  exact Set.disjoint_left.1 (disjoint_handedOut j n k) (hnames s hs)
    (hintroduces.lexical_mem s hmem)

/-! ## Functions -/

/-- Parameters and a body that belong together. -/
structure MadeParts (n : Nat) (outer inner : Scene) (params body : Tree) : Prop where
  outside : Placed (Agrees n outer) (.node .formalParameters) params
  inside : Placed (Agrees n inner) (.node .functionBody) body
  rules : ∀ x unique, Rules.function x unique params body = some []
  directive : body.hasUseStrict? = some false

/-- The parameters are made before the body. -/
theorem MadeParameters.parts {outer inner : Scene} {params body : Tree} {j : Nat} (hj : n ≤ j)
    (h : MadeParameters outer n j params) (hbody : MadeBody inner j k body) :
    MadeParts n outer inner params body := by
  obtain ⟨names, hnames, hnodup, hmem⟩ := h.names
  obtain ⟨b, hb⟩ := h.simple
  exact ⟨h.placed, hbody.placed.sooner hj,
    fun x unique => function_eq_nil hnames hnodup hb hbody.directive (hbody.redeclared hmem),
    hbody.directive⟩

include hm hs in
theorem yields_functionParts {isAsync isGenerator superProperty superCall : Bool} :
    Yields n (functionParts rs m levels c isAsync isGenerator superProperty superCall) fun parts =>
      MadeParts n (c.ofFunction superProperty superCall)
        { c.ofFunction superProperty superCall with isAsync, isGenerator } parts.1 parts.2 := by
  refine (makes_parameters hm).bind fun params j hj hparams => ?_
  refine (makes_functionBody hs).bind fun body k _ hbody => ?_
  exact .pure fun _ _ => hparams.parts hj hbody

/-- The context in a function that begins with no directive agrees with the scene in it. -/
theorem Agrees.ofFunction {x : Context} {body : Tree} (hx : Agrees n c x)
    (hbody : body.hasUseStrict? = some false) {superCall superCall' : Bool}
    (hsuper : superCall = true → superCall' = true)
    (inBody isAsync isGenerator superProperty : Bool) :
    ∃ inner, x.inherited.ofFunction inBody isAsync isGenerator superProperty superCall' body
        = some inner ∧
      Agrees n { c.ofFunction superProperty superCall with
        isAsync := inBody && isAsync, isGenerator := inBody && isGenerator } inner := by
  refine ⟨_, by rw [Context.ofFunction, hbody]; rfl, ?_⟩
  exact {
    inFunction := id
    isAsync := id
    isGenerator := id
    inLoop := nofun
    inSwitch := nofun
    labels := nofun
    bounded := nofun
    superProperty := id
    superCall := hsuper
    strict := fun h => hx.strict (by simpa [Context.inherited] using h) }

/-- The context in a getter or setter agrees with the scene in it. -/
theorem Agrees.ofAccessor {x : Context} {body : Tree} (hx : Agrees n c x)
    (hbody : body.hasUseStrict? = some false) (inBody superCall : Bool) :
    ∃ inner, x.inherited.ofFunction inBody false false true superCall body = some inner ∧
      Agrees n (c.ofFunction true false) inner := by
  have hsuper : false = true → superCall = true := nofun
  have h := hx.ofFunction hbody hsuper inBody false false true
  rwa [Bool.and_false] at h

/-- The name that a declaration is given is that of a default export. -/
def NamesDefault (name : Option Tree) : Prop := ∀ t, name = some t → t = bindingOf defaultExportName

/-- The names that a declaration may take: a fresh one, if it is not given one. -/
def ownNames (name : Option Tree) (n k : Nat) : Set String :=
  if name.isSome then {defaultExportName} else handedOut n k

/-- The contexts of a declaration; what is given a name is a default export. -/
def OfDeclaration (name : Option Tree) (n : Nat) (c : Scene) (x : Context) : Prop :=
  Agrees n c x ∧ (name.isSome = true → x.defaultName = true)

section Declarations

variable {name : Option Tree}

/-- A declaration is made with the name that it is given, or with a fresh one. -/
theorem makes_named (hname : NamesDefault name) {f : Tree → Gen σ Tree} {Q : Nat → Tree → Prop}
    (h : ∀ s k, n ≤ k → s ∈ ownNames name n k → Makes k (f (bindingOf s)) Q) :
    Makes n (match name with
      | none => do f (← binding)
      | some t => do f (← pure t)) Q := by
  cases name with
  | none =>
    refine makes_binding.bind ?_
    rintro _ k hk ⟨s, hs, rfl⟩
    exact h s k hk hs
  | some t =>
    obtain rfl := hname t rfl
    refine Makes.bind (.pure fun _ _ => rfl) ?_
    rintro _ k hk rfl
    exact h _ k hk rfl

theorem placed_ownName {s : String} (h : s ∈ ownNames name n k) :
    Placed (fun x => name.isSome = true → x.defaultName = true) (.node .bindingIdentifier)
      (bindingOf s) := by
  cases name with
  | none => exact placed_bindingOf h
  | some t =>
    obtain rfl : s = defaultExportName := h
    refine placed_node (.cons (.leaf (fitsType_string.2 ⟨_, rfl⟩) rfl) .nil) fun x hx => ?_
    simp [nodeErrors, Rules.binding, EarlyError.when, hx rfl]

theorem ownNames_mono {j : Nat} (hj : n ≤ j) {k' : Nat} (hk : k ≤ k') :
    ownNames name j k ⊆ ownNames name n k' := by
  cases name with
  | none => exact handedOut_mono hj hk
  | some t => exact subset_rfl

/-- A function declaration declares its name, in one way or the other. -/
theorem declares_functionDeclaration {S : Set String} {s : String} (h : s ∈ S)
    (isAsync isGenerator params body : Tree) :
    Declares S (.node .functionDeclaration
      [isAsync, isGenerator, bindingOf s, params, body]) := by
  have hmem : ∀ t ∈ [s], t ∈ S := by simpa using h
  intro f
  cases f with
  | true => exact ⟨[], [s], rfl, rfl, .vars hmem⟩
  | false => exact ⟨[s], [], rfl, rfl, .lexical (List.nodup_singleton s) hmem⟩

include hm hs in
theorem makes_functionDeclaration (hname : NamesDefault name) :
    Makes n (functionDeclaration rs m levels c name) fun k t =>
      Placed (OfDeclaration name n c) (.node .functionDeclaration) t ∧
        Declares (ownNames name n k) t := by
  refine (yields_chance 30).bind fun isAsync _ => ?_
  refine (yields_chance 20).bind fun isGenerator _ => ?_
  refine Yields.bind (yields_functionParts hm hs) ?_
  rintro ⟨params, body⟩ hparts
  refine makes_named hname fun s k hk hown => ?_
  have hnode : Placed (OfDeclaration name n c) (.node .functionDeclaration)
      (.node .functionDeclaration
        [.bool isAsync, .bool isGenerator, bindingOf s, params, body]) := by
    refine placed_node (.cons (.leaf (fitsType_boolean.2 ⟨_, rfl⟩) rfl)
      (.cons (.leaf (fitsType_boolean.2 ⟨_, rfl⟩) rfl) (.cons ?_ (.cons ?_ (.cons ?_ .nil)))))
      fun x _ => hparts.rules x false
    · exact (placed_ownName hown).field fun x hx => ⟨_, rfl, hx.2⟩
    · exact hparts.outside.field fun x hx =>
        hx.1.ofFunction hparts.directive id false isAsync isGenerator false
    · exact hparts.inside.field fun x hx =>
        hx.1.ofFunction hparts.directive id true isAsync isGenerator false
  refine Makes.mono (yields_self hnode) ?_
  rintro k' t hk' rfl
  exact ⟨hnode, declares_functionDeclaration (ownNames_mono le_rfl hk' hown) _ _ _ _⟩

end Declarations

include hm hs in
theorem yields_functionExpression :
    Yields n (functionExpression rs m levels c) (Placed (Agrees n c) expression) := by
  refine (yields_chance 30).bind fun isAsync _ => ?_
  refine (yields_chance 20).bind fun isGenerator _ => ?_
  refine Yields.bind (yields_functionParts hm hs) ?_
  rintro ⟨params, body⟩ hparts
  refine Yields.bind (yields_optionalName (C := Agrees n c)) fun name hname => ?_
  refine yields_member isUnion_expression rfl (placed_node
    (.cons (.leaf (fitsType_boolean.2 ⟨_, rfl⟩) rfl) (.cons (.leaf (fitsType_boolean.2 ⟨_, rfl⟩) rfl)
      (.cons ?_ (.cons ?_ (.cons ?_ .nil))))) fun x _ => hparts.rules x false)
  · exact hname.field fun x hx => ⟨_, rfl, hx.inherited⟩
  · exact hparts.outside.field fun x hx =>
      hx.ofFunction hparts.directive id false isAsync isGenerator false
  · exact hparts.inside.field fun x hx =>
      hx.ofFunction hparts.directive id true isAsync isGenerator false

/-! ## Arrow functions -/

/-- The scene in an arrow function, before its body. -/
def Scene.ofArrow (c : Scene) : Scene :=
  { c with
    inFunction := true, isAsync := false, isGenerator := false, inLoop := false,
    inSwitch := false, labels := [] }

/-- The context in an arrow function that begins with no directive agrees with the scene in
it. -/
theorem Agrees.ofArrow {x : Context} {body : Tree} (hx : Agrees n c x)
    (hbody : body.hasUseStrict? = some false) (inBody isAsync : Bool) :
    ∃ inner, x.inherited.ofArrow inBody isAsync body = some inner ∧
      Agrees n { c.ofArrow with isAsync := inBody && isAsync } inner := by
  refine ⟨_, by rw [Context.ofArrow, hbody]; rfl, ?_⟩
  exact {
    inFunction := id
    isAsync := fun h => (Bool.and_comm _ _).trans h
    isGenerator := nofun
    inLoop := nofun
    inSwitch := nofun
    labels := nofun
    bounded := nofun
    superProperty := hx.superProperty
    superCall := hx.superCall
    strict := fun h => hx.strict (by simpa [Context.inherited] using h) }

/-- What an arrow function has for its body. -/
def arrowBody : TypeSpec := .union [.node .functionBody, expression]

theorem isUnion_arrowBody : IsUnion arrowBody := rfl

theorem placed_arrowExpression {params body : Tree} {isAsync : Bool}
    (hparams : Placed (Agrees n c.ofArrow) (.node .formalParameters) params)
    (hbody : Placed (Agrees n { c.ofArrow with isAsync }) arrowBody body)
    (hrules : ∀ x unique, Rules.function x unique params body = some [])
    (hdirective : body.hasUseStrict? = some false) :
    Placed (Agrees n c) (.node .arrowExpression)
      (.node .arrowExpression [.bool isAsync, params, body]) := by
  refine placed_node (.cons (.leaf (fitsType_boolean.2 ⟨_, rfl⟩) rfl)
    (.cons ?_ (.cons ?_ .nil))) fun x _ => hrules x true
  · exact hparams.field fun x hx => hx.ofArrow hdirective false isAsync
  · exact hbody.field fun x hx => hx.ofArrow hdirective true isAsync

/-- An expression as the body of a function declares nothing. -/
theorem expression_as_body {body : Tree} (h : Placed C expression body) (names : List String) :
    Rules.redeclared names body = some [] ∧ body.hasUseStrict? = some false := by
  obtain ⟨k, fields, rfl, hk, -⟩ := (fitsType_isUnion isUnion_expression).1 h.1
  have hbody : k ≠ .functionBody ∧ k ≠ .script := by
    constructor <;> (rintro rfl; cases hk)
  constructor
  · unfold Rules.redeclared
    split <;> simp_all
  · unfold Tree.hasUseStrict?
    split <;> simp_all

include hm hs in
theorem yields_arrow : Yields n (arrow rs m levels c) (Placed (Agrees n c) expression) := by
  refine (yields_chance 30).bind fun isAsync _ => ?_
  refine (makes_parameters hm).bind fun params j hj hparams => ?_
  refine (yields_chance 50).bind fun b _ => .ite (fun _ => ?_) fun _ => ?_
  · refine (makes_functionBody hs).bind fun body k _ hbody => ?_
    have hparts := hparams.parts hj hbody
    refine yields_member isUnion_expression rfl (placed_arrowExpression hparts.outside ?_
      hparts.rules hparts.directive)
    exact hparts.inside.member isUnion_arrowBody rfl
  · refine Yields.bind (yields_part hm) fun body hbody => ?_
    obtain ⟨names, hnames, hnodup, -⟩ := hparams.names
    obtain ⟨b, hb⟩ := hparams.simple
    obtain ⟨hredeclared, hdirective⟩ := expression_as_body hbody names
    refine yields_member isUnion_expression rfl (placed_arrowExpression hparams.placed ?_
      (fun x unique => function_eq_nil hnames hnodup hb hdirective hredeclared) hdirective)
    exact (hbody.sooner hj).widen isUnion_expression isUnion_arrowBody fun k hk => by
      simp [arrowBody, Spec.union, Spec.hasMember, Spec.anyHasMember, hk]

/-! ## Methods -/

/-- A property name that is neither `constructor` nor `prototype` written out. -/
def OrdinaryName (t : Tree) : Prop :=
  t.isStaticName? "constructor" = some false ∧ t.isStaticName? "prototype" = some false

theorem isUnion_propertyName : IsUnion Language.propertyName := rfl

theorem isUnion_methodDefinition : IsUnion methodDefinition := rfl

include hm in
theorem yields_propertyName {first : String} {others : List String}
    (h : ∀ s ∈ first :: others, s ≠ "constructor" ∧ s ≠ "prototype") :
    Yields n (propertyName rs m levels c first others) fun t =>
      Placed (Agrees n c) Language.propertyName t ∧ OrdinaryName t := by
  have hstatic : Yields n (do node (σ := σ) .staticPropertyName [← chooseText rs first others])
      fun t => Placed (Agrees n c) Language.propertyName t ∧ OrdinaryName t := by
    refine (yields_chooseText first others).bind fun t ⟨s, hs, ht⟩ => ?_
    subst ht
    have hnode : Placed (Agrees n c) (.node .staticPropertyName)
        (.node .staticPropertyName [.str s]) :=
      placed_plain (fun _ _ => rfl) (fun _ _ => rfl) (.cons (.str s) .nil)
    refine (yields_self hnode).mono ?_
    rintro t rfl
    refine ⟨hnode.member isUnion_propertyName rfl, ?_⟩
    simpa [OrdinaryName, Tree.isStaticName?] using h s hs
  refine .ite (fun _ => hstatic) fun _ => ?_
  refine (yields_chance 20).bind fun b _ => .ite (fun _ => ?_) fun _ => hstatic
  refine Yields.bind (yields_part hm) fun e he => ?_
  have hnode : Placed (Agrees n c) (.node .computedPropertyName)
      (.node .computedPropertyName [e]) :=
    placed_plain (fun _ _ => rfl) (fun _ _ => rfl) (.cons he .nil)
  refine (yields_self hnode).mono ?_
  rintro t rfl
  exact ⟨hnode.member isUnion_propertyName rfl, rfl, rfl⟩

/-- The contexts of a method; if it calls `super`, it is the constructor of a derived class. -/
def OfMethod (superCall : Bool) (n : Nat) (c : Scene) (x : Context) : Prop :=
  Agrees n c x ∧ (superCall = true → x.derivedConstructor = true)

include hm hs in
theorem yields_plainMethod {name : Tree} (hname : Placed (Agrees n c) Language.propertyName name)
    {isAsync isGenerator superCall : Bool} :
    Yields n (plainMethod rs m levels c name isAsync isGenerator superCall) fun t =>
      Placed (OfMethod superCall n c) (.node .method) t ∧
        ∃ params body, t = .node .method [.bool isAsync, .bool isGenerator, name, params, body] := by
  refine Yields.bind (yields_functionParts hm hs) ?_
  rintro ⟨params, body⟩ hparts
  have hnode : Placed (OfMethod superCall n c) (.node .method)
      (.node .method [.bool isAsync, .bool isGenerator, name, params, body]) := by
    refine placed_node (.cons (.leaf (fitsType_boolean.2 ⟨_, rfl⟩) rfl)
      (.cons (.leaf (fitsType_boolean.2 ⟨_, rfl⟩) rfl) (.cons ?_ (.cons ?_ (.cons ?_ .nil)))))
      fun x _ => hparts.rules x true
    · exact hname.field fun x hx => ⟨_, rfl, hx.1.inherited⟩
    · exact hparts.outside.field fun x hx =>
        hx.1.ofFunction hparts.directive hx.2 false isAsync isGenerator true
    · exact hparts.inside.field fun x hx =>
        hx.1.ofFunction hparts.directive hx.2 true isAsync isGenerator true
  refine (yields_self hnode).mono ?_
  rintro t rfl
  exact ⟨hnode, params, body, rfl⟩

include hm hs in
theorem yields_method : Yields n (method rs m levels c) fun t =>
    Placed (Agrees n c) methodDefinition t ∧
      ∃ name, t.methodName? = some name ∧ OrdinaryName name := by
  refine Yields.bind (yields_propertyName hm (by decide)) ?_
  rintro name ⟨hname, hordinary⟩
  refine yields_draw.bind fun r _ => .ite (fun _ => ?_) fun _ => .ite (fun _ => ?_) fun _ => ?_
  · refine (yields_chance 30).bind fun isAsync _ => ?_
    refine (yields_chance 20).bind fun isGenerator _ => ?_
    refine (yields_plainMethod hm hs hname).mono ?_
    rintro t ⟨ht, params, body, rfl⟩
    exact ⟨(ht.weaken fun x hx => ⟨hx, nofun⟩).member isUnion_methodDefinition rfl, name, rfl,
      hordinary⟩
  · refine (makes_functionBody hs).bind fun body k _ hbody => ?_
    have hnode : Placed (Agrees n c) (.node .getter) (.node .getter [name, body]) := by
      refine placed_node (.cons ?_ (.cons ?_ .nil)) fun _ _ => rfl
      · exact hname.field fun x hx => ⟨_, rfl, hx.inherited⟩
      · exact hbody.placed.field fun x hx => hx.ofAccessor hbody.directive true _
    refine (yields_self hnode).mono ?_
    rintro t rfl
    exact ⟨hnode.member isUnion_methodDefinition rfl, name, rfl, hordinary⟩
  · refine makes_binding.bind ?_
    rintro _ j hj ⟨s, hs', rfl⟩
    refine (makes_functionBody hs).bind fun body k _ hbody => ?_
    have hrules : Rules.setter (bindingOf s) body = some [] := by
      have hredeclared : Rules.redeclared [s] body = some [] :=
        hbody.redeclared (by simpa using hs')
      have hplain : (bindingOf s).isKind .bindingWithDefault = false := rfl
      have hname : (bindingOf s).parameterName? = some s := rfl
      simp [Rules.setter, EarlyError.when, hname, hredeclared, hbody.directive, hplain]
    have hnode : Placed (Agrees n c) (.node .setter)
        (.node .setter [name, bindingOf s, body]) := by
      refine placed_node (.cons ?_ (.cons ?_ (.cons ?_ .nil))) fun _ _ => hrules
      · exact hname.field fun x hx => ⟨_, rfl, hx.inherited⟩
      · exact ((placed_bindingOf hs').member isUnion_parameter rfl).field fun x hx =>
          hx.ofAccessor hbody.directive false _
      · exact (hbody.placed.sooner hj).field fun x hx =>
          hx.ofAccessor hbody.directive true _
    refine (yields_self hnode).mono ?_
    rintro t rfl
    exact ⟨hnode.member isUnion_methodDefinition rfl, name, rfl, hordinary⟩

end Functions

end Whittle.Sample
