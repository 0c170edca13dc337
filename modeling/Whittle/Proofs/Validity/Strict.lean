import Whittle.Proofs.Validity.Hoisting
import Whittle.Proofs.Validity.Super

/-!
# Strict code

Modules and classes are strict code throughout; scripts and functions are if they have the
directive for it. All that is nested in strict code is strict too, and nothing else is: the name
of a function and the computed key of a method stay outside of it. So whether strict mode forbids
something at a node can be told from the nodes around it.
-/

namespace Whittle

open Grammar Whittle.Language Violation

/-! ## What the nodes around say -/

/-- The directives of a script or of the body of a function turn strict mode on. -/
def OpensStrict (t : Tree) : Prop :=
  ∃ ds, t.childAt (.field "directives") = .ok (.list ds) ∧
    .node .directive [.str "use strict"] ∈ ds

/-- The field of a node that is entered is strict code, whatever there is around the node. -/
inductive MakesStrict (a : Ancestor) : Prop
  | esModule (h : a.kind = .esModule)
  | script (h : a.kind = .script) (hopens : OpensStrict a.node)
  | ofClass (h : a.kind = .classDeclaration ∨ a.kind = .classExpression)
  | function {fs : List Tree} (h : a.isFunctionPart = true)
    (hbody : a.node.childAt (.field "body") = .ok (.node .functionBody fs))
    (hopens : OpensStrict (.node .functionBody fs))

/-- The nodes around a node, the innermost first, make it strict code. -/
def InStrictCode (as : List Ancestor) : Prop := ∃ a ∈ as, MakesStrict a

/-- A parameter, with a default or without one, has a name. -/
inductive IsNamed : Tree → String → Prop
  | plain (x : String) : IsNamed (.node .bindingIdentifier [.str x]) x
  | withDefault (x : String) (init : Tree) :
    IsNamed (.node .bindingWithDefault [.node .bindingIdentifier [.str x], init]) x

/-- One of some formal parameters has a name; the path is that of the parameter. -/
inductive ParameterAt : Tree → Path → String → Prop
  | item {items : List Tree} {rest item : Tree} {i : Nat} {x : String} (hi : items[i]? = some item)
    (h : IsNamed item x) :
    ParameterAt (.node .formalParameters [.list items, rest]) [.field "items", .index i] x
  | rest (items : Tree) (x : String) :
    ParameterAt (.node .formalParameters [items, .node .bindingIdentifier [.str x]])
      [.field "rest"] x

/-- Parameters that are more than names: one has a default, or there is a rest parameter. -/
inductive NotSimple : Tree → Prop
  | withDefault {items fs : List Tree} (rest : Tree) (h : .node .bindingWithDefault fs ∈ items) :
    NotSimple (.node .formalParameters [.list items, rest])
  | rest (items : Tree) {rest : Tree} (h : rest ≠ .absent) :
    NotSimple (.node .formalParameters [items, rest])

/-- No two parameters of a function may have the same name. -/
inductive NeedsDistinct (as : List Ancestor) (k : Kind) (fields : List Tree) : Prop
  | kind (h : k = .arrowExpression ∨ k = .method)
  | parameters {params : Tree} (h : (Tree.node k fields).childAt (.field "params") = .ok params)
    (hsimple : NotSimple params)
  | directive {fs : List Tree}
    (h : (Tree.node k fields).childAt (.field "body") = .ok (.node .functionBody fs))
    (hopens : OpensStrict (.node .functionBody fs))
  | strict (h : InStrictCode as)

/-- What a node does that strict mode forbids, with the error for it. The nodes around the node
are `as`, the innermost first. -/
inductive Forbidden (as : List Ancestor) : Tree → EarlyError → Prop
  /-- It deletes a name, in strict code. -/
  | delete (fields : List Tree) (h : InStrictCode as) :
    Forbidden as (.node .unaryExpression [.str "delete", .node .identifierExpression fields])
      strictDelete.here
  /-- It binds a name that has a meaning of its own, in strict code. -/
  | binding {x : String} (hx : x = "eval" ∨ x = "arguments") (h : InStrictCode as) :
    Forbidden as (.node .bindingIdentifier [.str x]) (restrictedName x).here
  /-- It is a function that has two parameters of one name, and needs distinct ones. -/
  | parameters {k : Kind} {fields : List Tree} {params : Tree} {p q : Path} {x : String}
    (hk : k ∈ Kind.functions) (h : (Tree.node k fields).childAt (.field "params") = .ok params)
    (hne : p ≠ q) (hp : ParameterAt params p x) (hq : ParameterAt params q x)
    (hdistinct : NeedsDistinct as k fields) :
    Forbidden as (.node k fields) ((duplicateParameter x).atField "params")

/-- The errors that strict mode has a say in, seen from the node that reports them. -/
inductive EarlyError.IsStrict : EarlyError → Prop
  | delete : IsStrict strictDelete.here
  | binding (x : String) : IsStrict (restrictedName x).here
  | parameters (x : String) : IsStrict ((duplicateParameter x).atField "params")

variable {a : Ancestor} {as : List Ancestor} {c inner : Context} {k : Kind}
  {fields : List Tree} {own : List EarlyError} {x : String}

/-! ## Directives -/

theorem isStrictDirective?_eq_true {d : Tree} :
    d.isStrictDirective? = some true ↔ d = .node .directive [.str "use strict"] := by
  constructor
  · intro h
    unfold Tree.isStrictDirective? at h
    split at h
    · rw [eq_of_beq (Option.some.inj h)]
    · cases h
  · rintro rfl
    rfl

theorem any_isStrictDirective? {ds : List Tree} {bs : List Bool}
    (h : ds.mapM Tree.isStrictDirective? = some bs) :
    bs.any id = true ↔ .node .directive [.str "use strict"] ∈ ds := by
  rw [List.any_eq_true]
  constructor
  · rintro ⟨b, hb, rfl⟩
    obtain ⟨d, hd, heq⟩ := mem_of_mapM h hb
    rwa [← isStrictDirective?_eq_true.1 heq]
  · intro hmem
    obtain ⟨b, hb, heq⟩ := exists_of_mapM h hmem
    exact ⟨b, hb, Option.some.inj (heq.symm.trans (isStrictDirective?_eq_true.2 rfl))⟩

/-- Only scripts and bodies of functions have directives that count. -/
theorem hasUseStrict?_iff {b : Bool} (h : (Tree.node k fields).hasUseStrict? = some b) :
    b = true ↔ (k = .script ∨ k = .functionBody) ∧ OpensStrict (.node k fields) := by
  have hopens : ∀ {k : Kind} {ds : List Tree} {ss : Tree} {bs : List Bool},
      k = .script ∨ k = .functionBody → ds.mapM Tree.isStrictDirective? = some bs →
      (bs.any id = true ↔ (k = .script ∨ k = .functionBody) ∧
        OpensStrict (.node k [.list ds, ss])) := by
    intro k ds ss bs hk hbs
    have hchild : (Tree.node k [.list ds, ss]).childAt (.field "directives") = .ok (.list ds) := by
      rcases hk with rfl | rfl <;>
        exact childAt_node.2 ⟨_, rfl, List.mem_of_getElem? (i := 0) rfl⟩
    rw [any_isStrictDirective? hbs, and_iff_right hk, OpensStrict, hchild]
    simp
  unfold Tree.hasUseStrict? at h
  split at h
  case h_1 heq | h_2 heq =>
    cases heq
    obtain ⟨bs, hbs, h⟩ := Option.bind_eq_some_iff.1 h
    cases h
    exact hopens (by simp) hbs
  case h_5 hscript hbody heq =>
    cases heq
    cases h
    refine iff_of_false nofun fun hk => ?_
    exact hk.1.elim hscript hbody
  all_goals cases h

/-! ## What the context says -/

/-- A script is in no other node. -/
theorem not_mem_script (h : FieldsFit false k k.slots fields) {v : Tree} (hv : v ∈ fields)
    (fs : List Tree) :
    v ≠ .node .script fs ∧ ∀ items, v = .list items → .node .script fs ∉ items := by
  have hall : Kind.all.all (fun k => !k.mayHold .script) = true := by decide
  have hk : k.mayHold .script = false := by simpa using Kind.forall_of_all hall k
  constructor
  · rintro rfl
    simpa [hk] using (h.mayHold hv).1 _ _ rfl
  · rintro items rfl hmem
    simpa [hk] using (h.mayHold hv).2 _ rfl _ _ hmem

theorem Ancestor.Fits.not_holds_script (ha : a.Fits) (fs : List Tree) :
    ¬ a.Holds (.node .script fs) := by
  rintro ⟨v, hv, hholds⟩
  obtain ⟨name, -, hmem⟩ := childAt_node.1 hv
  obtain ⟨hne, hitems⟩ := not_mem_script ha.fields (List.of_mem_zip hmem).2 fs
  rcases hholds with rfl | ⟨items, rfl, hscript⟩
  · exact hne rfl
  · exact hitems items rfl hscript

/-- The kinds of nodes that may make each of their fields strict code. -/
def Kind.turnsStrict : Kind → Bool
  | esModule | script | classDeclaration | classExpression => true
  | _ => false

theorem not_makesStrict (hpart : a.isFunctionPart = false)
    (hk : a.kind.turnsStrict = false) : ¬ MakesStrict a := by
  intro h
  cases h with
  | esModule h => simp [h, Kind.turnsStrict] at hk
  | script h => simp [h, Kind.turnsStrict] at hk
  | ofClass h => rcases h with h | h <;> simp [h, Kind.turnsStrict] at hk
  | function h => simp [hpart] at h

theorem strict_of_plain (hpart : a.isFunctionPart = false)
    (hk : a.kind.turnsStrict = false)
    (hinner : inner.strict = c.strict) :
    inner.strict = true ↔ c.strict = true ∨ MakesStrict a := by
  rw [hinner, or_iff_left (not_makesStrict hpart hk)]

/-- The body of a function has a directive for strict mode. -/
theorem hasUseStrict?_body_iff (hfields : FieldsFit false k k.slots fields) {body : Tree} {b : Bool}
    (hbody : (Tree.node k fields).childAt (.field "body") = .ok body)
    (hb : body.hasUseStrict? = some b) :
    b = true ↔ ∃ fs, body = .node .functionBody fs ∧ OpensStrict (.node .functionBody fs) := by
  obtain ⟨_, -, hmem⟩ := childAt_node.1 hbody
  have hscript := not_mem_script hfields (List.of_mem_zip hmem).2
  cases body with
  | node l fs =>
    rw [hasUseStrict?_iff hb]
    constructor
    · rintro ⟨rfl | rfl, hopens⟩
      · exact ((hscript fs).1 rfl).elim
      · exact ⟨fs, rfl, hopens⟩
    · rintro ⟨_, ⟨⟩, hopens⟩
      exact ⟨.inr rfl, hopens⟩
  | _ => cases hb

/-- A function that is entered through its parameters or its body makes them strict by the
directives of its body. -/
theorem makesStrict_iff_body (hpart : a.isFunctionPart = true) {body : Tree}
    (hbody : a.node.childAt (.field "body") = .ok body) :
    MakesStrict a ↔ ∃ fs, body = .node .functionBody fs ∧ OpensStrict (.node .functionBody fs) := by
  have hkind := (Bool.and_eq_true_iff.1 hpart).1
  constructor
  · intro h
    cases h with
    | esModule h => simp [h] at hkind
    | script h => simp [h] at hkind
    | ofClass h => rcases h with h | h <;> simp [h] at hkind
    | function _ hbody' hopens =>
      cases hbody.symm.trans hbody'
      exact ⟨_, rfl, hopens⟩
  · rintro ⟨fs, rfl, hopens⟩
    exact .function hpart hbody hopens

/-- The strictness of a field of a function, for its parameters or its body or neither. -/
theorem strict_of_part {part : Bool} {y z : Option Context} {body : Tree} (ha : a.Fits)
    (hpart : a.isFunctionPart = part)
    (hk : a.kind.turnsStrict = false)
    (hbody : a.node.childAt (.field "body") = .ok body)
    (h : (if part = true then y else z) = some inner)
    (hy : y = some inner → ∃ b, body.hasUseStrict? = some b ∧ inner.strict = (c.strict || b))
    (hz : z = some inner → inner.strict = c.strict) :
    inner.strict = true ↔ c.strict = true ∨ MakesStrict a := by
  cases part with
  | true =>
    obtain ⟨b, hb, hinner⟩ := hy h
    rw [hinner, Bool.or_eq_true, makesStrict_iff_body hpart hbody,
      hasUseStrict?_body_iff ha.fields hbody hb]
  | false => exact strict_of_plain hpart hk (hz h)

theorem ofFunction_strict {inBody isAsync isGenerator superProperty superCall : Bool} {body : Tree}
    (h : c.ofFunction inBody isAsync isGenerator superProperty superCall body = some inner) :
    ∃ b, body.hasUseStrict? = some b ∧ inner.strict = (c.strict || b) := by
  obtain ⟨b, hb, h⟩ := Option.bind_eq_some_iff.1 h
  cases h
  exact ⟨b, hb, rfl⟩

theorem ofFlags_strict {inBody superProperty superCall : Bool} {isAsync isGenerator body : Tree}
    (h : (do
      c.ofFunction inBody (← isAsync.flag?) (← isGenerator.flag?) superProperty superCall body)
      = some inner) : ∃ b, body.hasUseStrict? = some b ∧ inner.strict = (c.strict || b) := by
  obtain ⟨_, -, h⟩ := Option.bind_eq_some_iff.1 h
  obtain ⟨_, -, h⟩ := Option.bind_eq_some_iff.1 h
  exact ofFunction_strict h

theorem ofArrow_strict {inBody isAsync : Bool} {body : Tree}
    (h : c.ofArrow inBody isAsync body = some inner) :
    ∃ b, body.hasUseStrict? = some b ∧ inner.strict = (c.strict || b) := by
  obtain ⟨b, hb, h⟩ := Option.bind_eq_some_iff.1 h
  cases h
  exact ⟨b, hb, rfl⟩

theorem ofClass_strict {isDeclaration : Bool} {superClass : Tree} {field : String} :
    (c.ofClass isDeclaration superClass field).strict = true := by
  unfold Context.ofClass
  split
  · rfl
  · split <;> rfl

/-- A field is strict code if the node is, or if the node makes it so. A script, which does not
ask what is around it, has nothing around it. -/
theorem ofField_strict (ha : a.Fits) (hscript : a.kind = .script → c.strict = false)
    (h : c.ofField a.kind a.fields a.field = some inner) :
    inner.strict = true ↔ c.strict = true ∨ MakesStrict a := by
  have hfield := ha.field
  obtain ⟨k, fields, field⟩ := a
  dsimp only at hfield hscript h
  unfold Context.ofField at h
  split at h
  case h_1 =>
    cases h
    exact iff_of_true rfl (.inr (.esModule rfl))
  case h_2 =>
    obtain ⟨b, hb, h⟩ := Option.bind_eq_some_iff.1 h
    cases h
    rw [hscript rfl, or_iff_right Bool.false_ne_true]
    refine (hasUseStrict?_iff hb).trans ⟨fun h => .script rfl h.2, fun h => ?_⟩
    cases h with
    | script _ hopens => exact ⟨.inl rfl, hopens⟩
    | esModule h => cases h
    | ofClass h => rcases h with h | h <;> cases h
    | function h => cases h
  case h_3 =>
    refine strict_of_part ha (Ancestor.isFunctionPart_eq hfield) rfl
      (childAt_node.2 ⟨_, rfl, List.mem_of_getElem? (i := 4) rfl⟩) h (fun h => ofFlags_strict h)
      fun h => ?_
    split at h <;> cases h <;> rfl
  case h_4 | h_5 =>
    refine strict_of_part ha (Ancestor.isFunctionPart_eq hfield) rfl
      (childAt_node.2 ⟨_, rfl, List.mem_of_getElem? (i := 4) rfl⟩) h (fun h => ofFlags_strict h)
      fun h => ?_
    cases h
    rfl
  case h_6 =>
    refine strict_of_part ha (Ancestor.isFunctionPart_eq hfield) rfl
      (childAt_node.2 ⟨_, rfl, List.mem_of_getElem? (i := 1) rfl⟩) h
      (fun h => ofFunction_strict h) fun h => ?_
    cases h
    rfl
  case h_7 =>
    refine strict_of_part ha (Ancestor.isFunctionPart_eq hfield) rfl
      (childAt_node.2 ⟨_, rfl, List.mem_of_getElem? (i := 2) rfl⟩) h
      (fun h => ofFunction_strict h) fun h => ?_
    cases h
    rfl
  case h_8 =>
    refine strict_of_part ha (Ancestor.isFunctionPart_eq hfield) rfl
      (childAt_node.2 ⟨_, rfl, List.mem_of_getElem? (i := 2) rfl⟩) h (fun h => ?_) fun h => ?_
    · obtain ⟨_, -, h⟩ := Option.bind_eq_some_iff.1 h
      obtain ⟨b, hb, hstrict⟩ := ofArrow_strict h
      exact ⟨b, hb, hstrict⟩
    · cases h
      rfl
  case h_9 | h_10 =>
    cases h
    exact iff_of_true ofClass_strict (.inr (.ofClass (by simp)))
  case h_11 =>
    obtain ⟨_, -, h⟩ := Option.bind_eq_some_iff.1 h
    obtain ⟨_, -, h⟩ := Option.bind_eq_some_iff.1 h
    cases h
    exact strict_of_plain rfl rfl rfl
  case h_12 | h_13 | h_14 | h_15 | h_16 | h_17 =>
    cases h
    exact strict_of_plain rfl rfl rfl
  case h_18 =>
    obtain ⟨_, -, h⟩ := Option.bind_eq_some_iff.1 h
    cases h
    exact strict_of_plain rfl rfl rfl
  case h_29 =>
    cases h
    refine strict_of_plain ?_ ?_ rfl
    · grind [Ancestor.isFunctionPart]
    · grind [Kind.turnsStrict]
  all_goals cases h

/-- The context of a node says that it is strict code if the nodes around it make it so. -/
theorem strict_iff (has : ∀ a ∈ as, a.Fits) (hholds : as.IsChain fun a b => b.Holds a.node)
    (h : contextIn? {} as = some c) : c.strict = true ↔ InStrictCode as := by
  induction as generalizing c with
  | nil =>
    cases h
    exact iff_of_false nofun fun ⟨a, ha, _⟩ => nomatch ha
  | cons a as ih =>
    obtain ⟨ha, has⟩ := List.forall_mem_cons.1 has
    obtain ⟨outer, houter, h⟩ := Option.bind_eq_some_iff.1 h
    have hscript : a.kind = .script → outer.strict = false := by
      intro hk
      cases as with
      | nil =>
        cases houter
        rfl
      | cons b bs =>
        -- nothing holds a script
        have hb : b.Holds a.node := (List.isChain_cons_cons.1 hholds).1
        rw [Ancestor.node, hk] at hb
        exact ((has b List.mem_cons_self).not_holds_script _ hb).elim
    rw [ofField_strict ha hscript h, ih has hholds.tail houter]
    constructor
    · rintro (⟨b, hb, hstrict⟩ | hstrict)
      · exact ⟨b, List.mem_cons_of_mem _ hb, hstrict⟩
      · exact ⟨a, List.mem_cons_self, hstrict⟩
    · rintro ⟨b, hb, hstrict⟩
      rcases List.mem_cons.1 hb with rfl | hb
      · exact .inr hstrict
      · exact .inl ⟨b, hb, hstrict⟩

/-! ## Parameters -/

theorem parameterName?_eq_some {item : Tree} : item.parameterName? = some x ↔ IsNamed item x := by
  constructor
  · intro h
    unfold Tree.parameterName? at h
    split at h
    · obtain rfl := bindingName?_eq_some.1 h
      exact .withDefault x _
    · obtain rfl := bindingName?_eq_some.1 h
      exact .plain x
  · intro h
    cases h <;> rfl

/-- The names of parameters stand at the parameters. -/
theorem places_parameterNames? {params : Tree} {ns : List String}
    (h : params.parameterNames? = some ns) : Places ns (ParameterAt params) := by
  have hitems : ∀ {items : List Tree} {ms : List String}, items.mapM Tree.parameterName? = some ms →
      Places ms fun p x => ∃ (i : Nat) (item : Tree), p = [.field "items", .index i] ∧
        items[i]? = some item ∧ IsNamed item x := by
    intro items ms hms
    refine ((Places.items ms).under [.field "items"]).congr fun p x => ?_
    constructor
    · rintro ⟨_, rfl, i, rfl, hi⟩
      rw [getElem?_of_mapM hms i] at hi
      obtain ⟨item, hitem, hx⟩ := Option.bind_eq_some_iff.1 hi
      exact ⟨i, item, rfl, hitem, parameterName?_eq_some.1 hx⟩
    · rintro ⟨i, item, rfl, hitem, hx⟩
      refine ⟨[.index i], rfl, i, rfl, ?_⟩
      rw [getElem?_of_mapM hms i, hitem]
      exact parameterName?_eq_some.2 hx
  unfold Tree.parameterNames? at h
  split at h
  · refine (hitems h).congr fun p x => ⟨?_, fun hat => ?_⟩
    · rintro ⟨i, item, rfl, hi, hx⟩
      exact .item hi hx
    · cases hat with
      | item hi hx => exact ⟨_, _, rfl, hi, hx⟩
  · obtain ⟨ms, hms, h⟩ := Option.bind_eq_some_iff.1 h
    obtain ⟨n, hn, h⟩ := Option.bind_eq_some_iff.1 h
    cases h
    obtain rfl := bindingName?_eq_some.1 hn
    refine ((hitems hms).append (Places.single [.field "rest"] n) ?_).congr fun p x => ⟨?_, ?_⟩
    · rintro _ _ _ _ ⟨i, item, rfl, -⟩ ⟨rfl, -⟩
      exact Path.Apart.of_step_ne (by simp) _ _
    · rintro (⟨i, item, rfl, hi, hx⟩ | ⟨rfl, rfl⟩)
      · exact .item hi hx
      · exact .rest _ x
    · intro hat
      cases hat with
      | item hi hx => exact .inl ⟨_, _, rfl, hi, hx⟩
      | rest => exact .inr ⟨rfl, rfl⟩
  · cases h

theorem isSimple?_iff {params : Tree} {b : Bool} (h : params.isSimple? = some b) :
    b = false ↔ NotSimple params := by
  unfold Tree.isSimple? at h
  split at h
  · rename_i items rest
    cases h
    rw [Bool.and_eq_false_iff, List.all_eq_false]
    constructor
    · rintro (hrest | ⟨item, hitem, hkind⟩)
      · exact .rest _ fun habsent => by simp [habsent, Tree.isAbsent] at hrest
      · obtain ⟨fs, rfl⟩ := isKind_iff.1 (by simpa using hkind)
        exact .withDefault rest hitem
    · intro hsimple
      cases hsimple with
      | withDefault _ hitem => exact .inr ⟨_, hitem, by simp [Tree.isKind, Tree.kind?]⟩
      | rest _ hrest =>
        refine .inl ?_
        cases rest <;> first | rfl | exact (hrest rfl).elim
  · cases h

/-- Whether the parameters of a function have distinct names in all code. -/
def Kind.hasDistinct (k : Kind) : Bool := k == .arrowExpression || k == .method

/-- Functions have parameters and a body, and keep the rules of functions. -/
theorem function_parts (hk : k ∈ Kind.functions) (h : FieldsFit false k k.slots fields) :
    ∃ params body, (Tree.node k fields).childAt (.field "params") = .ok params ∧
      (Tree.node k fields).childAt (.field "body") = .ok body ∧
      ∀ c, nodeErrors c k fields = Rules.function c k.hasDistinct params body := by
  simp only [Kind.functions, List.mem_cons, List.not_mem_nil, or_false] at hk
  rcases hk with rfl | rfl | rfl | rfl
  · obtain ⟨a, g, name, params, body, rfl, -⟩ := (fit_five rfl rfl).1 h
    exact ⟨params, body, childAt_node.2 ⟨_, rfl, List.mem_of_getElem? (i := 3) rfl⟩,
      childAt_node.2 ⟨_, rfl, List.mem_of_getElem? (i := 4) rfl⟩, fun c => rfl⟩
  · obtain ⟨a, g, name, params, body, rfl, -⟩ := (fit_five rfl rfl).1 h
    exact ⟨params, body, childAt_node.2 ⟨_, rfl, List.mem_of_getElem? (i := 3) rfl⟩,
      childAt_node.2 ⟨_, rfl, List.mem_of_getElem? (i := 4) rfl⟩, fun c => rfl⟩
  · obtain ⟨a, params, body, rfl, -⟩ := (fit_three rfl rfl).1 h
    exact ⟨params, body, childAt_node.2 ⟨_, rfl, List.mem_of_getElem? (i := 1) rfl⟩,
      childAt_node.2 ⟨_, rfl, List.mem_of_getElem? (i := 2) rfl⟩, fun c => rfl⟩
  · obtain ⟨a, g, name, params, body, rfl, -⟩ := (fit_five rfl rfl).1 h
    exact ⟨params, body, childAt_node.2 ⟨_, rfl, List.mem_of_getElem? (i := 3) rfl⟩,
      childAt_node.2 ⟨_, rfl, List.mem_of_getElem? (i := 4) rfl⟩, fun c => rfl⟩

theorem violation_redeclared {names : List String} {body : Tree} {es : List EarlyError}
    {e : EarlyError} (h : Rules.redeclared names body = some es) (he : e ∈ es) :
    ∃ n, e.violation = .parameterRedeclared n := by
  unfold Rules.redeclared at h
  split at h
  · obtain ⟨_, -, h⟩ := Option.bind_eq_some_iff.1 h
    cases h
    obtain ⟨n, -, rfl⟩ := List.mem_map.1 he
    exact ⟨n, rfl⟩
  · cases h
  · cases h
    cases he
  · cases h

/-- A function reports a name that its parameters share, if they must have distinct names. -/
theorem mem_function {unique : Bool} {params body : Tree} {e : EarlyError}
    (he : e.violation = .duplicateParameter x)
    (h : Rules.function c unique params body = some own) :
    ∃ ns simple directive, params.parameterNames? = some ns ∧ params.isSimple? = some simple ∧
      body.hasUseStrict? = some directive ∧
      (e ∈ own ↔ e = (duplicateParameter x).atField "params" ∧ 2 ≤ ns.count x ∧
        (unique || !simple || c.strict || directive) = true) := by
  obtain ⟨ns, hns, h⟩ := Option.bind_eq_some_iff.1 h
  obtain ⟨redeclarations, hredeclarations, h⟩ := Option.bind_eq_some_iff.1 h
  obtain ⟨simple, hsimple, h⟩ := Option.bind_eq_some_iff.1 h
  obtain ⟨directive, hdirective, h⟩ := Option.bind_eq_some_iff.1 h
  cases h
  refine ⟨ns, simple, directive, hns, hsimple, hdirective, ?_⟩
  constructor
  · intro hmem
    rcases List.mem_append.1 hmem with hmem | hmem
    · -- the other rules of functions are about something else
      exfalso
      rcases List.mem_append.1 hmem with hmem | hmem
      · obtain ⟨n, hn⟩ := violation_redeclared hredeclarations hmem
        cases he.symm.trans hn
      · obtain ⟨-, rfl⟩ := mem_when.1 hmem
        cases he
    · split at hmem
      · rename_i hdistinct
        obtain ⟨n, hn, rfl⟩ := List.mem_map.1 hmem
        cases he
        exact ⟨rfl, mem_duplicates.1 hn, hdistinct⟩
      · cases hmem
  · rintro ⟨rfl, hcount, hdistinct⟩
    refine List.mem_append_right _ ?_
    rw [if_pos hdistinct]
    exact List.mem_map_of_mem (mem_duplicates.2 hcount)

/-! ## Reported errors -/

variable {e : EarlyError}

theorem needsDistinct_iff (hfields : FieldsFit false k k.slots fields)
    (hstrict : c.strict = true ↔ InStrictCode as) {params body : Tree} {simple directive : Bool}
    (hparams : (Tree.node k fields).childAt (.field "params") = .ok params)
    (hbody : (Tree.node k fields).childAt (.field "body") = .ok body)
    (hsimple : params.isSimple? = some simple) (hdirective : body.hasUseStrict? = some directive) :
    (k.hasDistinct || !simple || c.strict || directive) = true ↔ NeedsDistinct as k fields := by
  rw [Bool.or_eq_true, Bool.or_eq_true, Bool.or_eq_true, Bool.not_eq_true', isSimple?_iff hsimple,
    hstrict, hasUseStrict?_body_iff hfields hbody hdirective, Kind.hasDistinct, Bool.or_eq_true,
    beq_iff_eq, beq_iff_eq]
  constructor
  · rintro (((h | h) | h) | ⟨fs, rfl, hopens⟩)
    · exact .kind h
    · exact .parameters hparams h
    · exact .strict h
    · exact .directive hbody hopens
  · intro h
    cases h with
    | kind h => exact .inl (.inl (.inl h))
    | parameters hparams' h =>
      cases hparams.symm.trans hparams'
      exact .inl (.inl (.inr h))
    | strict h => exact .inl (.inr h)
    | directive hbody' hopens =>
      cases hbody.symm.trans hbody'
      exact .inr ⟨_, rfl, hopens⟩

/-- A function reports two parameters of one name if they may not have it. -/
theorem parameters_mem_iff (hfields : FieldsFit false k k.slots fields)
    (hown : nodeErrors c k fields = some own) (hstrict : c.strict = true ↔ InStrictCode as)
    (he : e.violation = .duplicateParameter x) :
    e ∈ own ↔ e = (duplicateParameter x).atField "params" ∧ Forbidden as (.node k fields) e := by
  by_cases hk : k ∈ Kind.functions
  swap
  · refine iff_of_false (fun hmem => hk ?_) ?_
    · have hreporters := (reports_nodeErrors c k fields own hown e hmem).mem
      rwa [he] at hreporters
    · rintro ⟨rfl, h⟩
      cases h with
      | parameters hk' => exact hk hk'
  obtain ⟨params, body, hparams, hbody, hrules⟩ := function_parts hk hfields
  obtain ⟨ns, simple, directive, hns, hsimple, hdirective, hmem⟩ :=
    mem_function he ((hrules c).symm.trans hown)
  rw [hmem, (places_parameterNames? hns).two_le_count,
    needsDistinct_iff hfields hstrict hparams hbody hsimple hdirective]
  refine and_congr_right fun heq => ?_
  subst heq
  constructor
  · rintro ⟨⟨p, q, hne, hp, hq⟩, hdistinct⟩
    exact .parameters hk hparams hne hp hq hdistinct
  · intro h
    cases h with
    | parameters _ hparams' hne hp hq hdistinct =>
      cases hparams.symm.trans hparams'
      exact ⟨⟨_, _, hne, hp, hq⟩, hdistinct⟩

/-- Names that strict code may not bind are reported where they are bound. -/
theorem binding_mem_iff (hfields : FieldsFit false k k.slots fields)
    (hown : nodeErrors c k fields = some own) (hstrict : c.strict = true ↔ InStrictCode as) :
    (restrictedName x).here ∈ own ↔ Forbidden as (.node k fields) (restrictedName x).here := by
  by_cases hk : k = .bindingIdentifier
  swap
  · refine iff_of_false (fun hmem => hk ?_) fun h => ?_
    · exact List.mem_singleton.1 (reports_nodeErrors c k fields own hown _ hmem).mem
    · cases h with
      | binding => exact hk rfl
  subst hk
  obtain ⟨name, rfl, hname⟩ := (fit_one rfl rfl).1 hfields
  obtain ⟨name, rfl⟩ := fitsType_string.1 hname
  cases hown
  have hrestricted : name ∈ Rules.restrictedNames ↔ name = "eval" ∨ name = "arguments" := by
    simp [Rules.restrictedNames]
  have hdefault : name = "eval" ∨ name = "arguments" → ¬(name == defaultExportName) = true := by
    rintro (rfl | rfl) <;> decide
  constructor
  · intro hmem
    unfold Rules.binding at hmem
    split at hmem
    · obtain ⟨-, heq⟩ := mem_when.1 hmem
      cases heq
    · rcases List.mem_append.1 hmem with hmem | hmem
      · rcases mem_spelling hmem with h | h <;> cases h
      · obtain ⟨h, heq⟩ := mem_when.1 hmem
        cases heq
        obtain ⟨hc, hmem⟩ := Bool.and_eq_true_iff.1 h
        exact .binding (hrestricted.1 (List.contains_iff_mem.1 hmem)) (hstrict.1 hc)
  · intro h
    cases h with
    | binding hx h =>
      rw [Rules.binding, if_neg (hdefault hx)]
      refine List.mem_append_right _ (mem_when.2 ⟨?_, rfl⟩)
      rw [hstrict.2 h, Bool.true_and]
      exact List.contains_iff_mem.2 (hrestricted.2 hx)

/-- Names are reported where they are deleted. -/
theorem delete_mem_iff (hfields : FieldsFit false k k.slots fields)
    (hown : nodeErrors c k fields = some own) (hstrict : c.strict = true ↔ InStrictCode as) :
    strictDelete.here ∈ own ↔ Forbidden as (.node k fields) strictDelete.here := by
  by_cases hk : k = .unaryExpression
  swap
  · refine iff_of_false (fun hmem => hk ?_) fun h => ?_
    · exact List.mem_singleton.1 (reports_nodeErrors c k fields own hown _ hmem).mem
    · cases h with
      | delete => exact hk rfl
  subst hk
  obtain ⟨operator, operand, rfl, hoperator, -⟩ := (fit_two rfl rfl).1 hfields
  obtain ⟨operator, rfl⟩ := exists_of_enum hoperator
  cases hown
  rw [mem_when, and_iff_left rfl, Bool.and_eq_true, Bool.and_eq_true, hstrict, beq_iff_eq,
    isKind_iff]
  constructor
  · rintro ⟨⟨h, rfl⟩, fs, rfl⟩
    exact .delete fs h
  · intro h
    cases h with
    | delete fs h => exact ⟨⟨h, rfl⟩, fs, rfl⟩

/-- An error that strict mode has a say in is reported by a node, at the node or at its
parameters, and says what the node does. -/
theorem mem_own_iff (hfields : FieldsFit false k k.slots fields)
    (hown : nodeErrors c k fields = some own) (hstrict : c.strict = true ↔ InStrictCode as)
    (he : e.IsStrict) : e ∈ own ↔ Forbidden as (.node k fields) e := by
  cases he with
  | delete => exact delete_mem_iff hfields hown hstrict
  | binding x => exact binding_mem_iff hfields hown hstrict
  | parameters x => rw [parameters_mem_iff hfields hown hstrict rfl, and_iff_right rfl]

/-- Where such an error is reported is settled by its rule. -/
theorem eq_of_isStrict (hfields : FieldsFit false k k.slots fields)
    (hown : nodeErrors c k fields = some own) (hstrict : c.strict = true ↔ InStrictCode as)
    (he : e.IsStrict) {e' : EarlyError} (he' : e' ∈ own) (h : e'.violation = e.violation) :
    e' = e := by
  have hpath := (reports_nodeErrors c k fields own hown e' he').path
  rw [h] at hpath
  obtain ⟨q, v⟩ := e'
  cases he with
  | delete =>
    obtain rfl : q = [] := hpath rfl
    cases h
    rfl
  | binding x =>
    obtain rfl : q = [] := hpath rfl
    cases h
    rfl
  | parameters x => exact ((parameters_mem_iff hfields hown hstrict h).1 he').1

/-- What strict mode forbids is reported at just those nodes that do it in strict code, and two
parameters of one name wherever they may not have it. -/
theorem mem_earlyErrors_strict {t n : Tree} {p : Path} (ht : t.wellTyped = true)
    (hn : t.get p = .ok n) (he : e.IsStrict) :
    ⟨p ++ e.path, e.violation⟩ ∈ earlyErrors t ↔ Forbidden (t.ancestors p) n e := by
  have hwalk := (wellTyped_iff.1 ht).walkable
  have hstrict : ∀ {q : Path} {c : Context}, contextIn? {} (t.ancestors q) = some c →
      (c.strict = true ↔ InStrictCode (t.ancestors q)) := fun hc =>
    strict_iff hwalk.ancestors (holds_ancestors hwalk) hc
  rw [mem_earlyErrors ht]
  constructor
  · rintro ⟨q, k, fields, c, own, e', he', hget, hc, hown, heq⟩
    obtain ⟨hpath, hviolation⟩ := EarlyError.mk.inj heq
    obtain rfl := eq_of_isStrict (hwalk.get hget) hown (hstrict hc) he he' hviolation.symm
    obtain rfl := List.append_cancel_right hpath
    obtain rfl := Except.ok.inj (hn.symm.trans hget)
    exact (mem_own_iff (hwalk.get hget) hown (hstrict hc) he).1 he'
  · intro h
    obtain ⟨k, fields, rfl⟩ : ∃ k fields, n = .node k fields := by
      cases h <;> exact ⟨_, _, rfl⟩
    obtain ⟨c, own, hc, hown⟩ := exists_contextAt ht hn
    exact ⟨p, k, fields, c, own, e, (mem_own_iff (hwalk.get hn) hown (hstrict hc) he).2 h, hn, hc,
      hown, rfl⟩

/-- A class that extends what deleting a name gives, and a function with the directive for strict
mode. Its name is `eval`, both its parameters are called the same, and it deletes one of them. -/
def strictParts : Tree :=
  .node .script [.list [], .list [
    .node .classDeclaration [.node .bindingIdentifier [.str "A"],
      .node .unaryExpression [.str "delete", .node .identifierExpression [.str "x"]], .list []],
    .node .functionDeclaration [.bool false, .bool false, .node .bindingIdentifier [.str "eval"],
      .node .formalParameters [.list [.node .bindingIdentifier [.str "a"],
        .node .bindingIdentifier [.str "a"]], .absent],
      .node .functionBody [.list [.node .directive [.str "use strict"]], .list [
        .node .expressionStatement [.node .unaryExpression [.str "delete",
          .node .identifierExpression [.str "a"]]]]]]]]

/-- What a class extends is strict code, and so are the parameters and the body of the function,
but its name is not. -/
theorem mem_earlyErrors_strict_strictParts :
    strictParts.wellTyped = true ∧
    ⟨[.field "statements", .index 0, .field "super_class"], .strictDelete⟩ ∈
      earlyErrors strictParts ∧
    ⟨[.field "statements", .index 1, .field "name"], .restrictedName "eval"⟩ ∉
      earlyErrors strictParts ∧
    ⟨[.field "statements", .index 1, .field "params"], .duplicateParameter "a"⟩ ∈
      earlyErrors strictParts ∧
    ⟨[.field "statements", .index 1, .field "body", .field "statements", .index 0,
      .field "expression"], .strictDelete⟩ ∈ earlyErrors strictParts := by
  have ht : strictParts.wellTyped = true := by decide
  refine ⟨ht, ?_, ?_, ?_, ?_⟩
  · refine (mem_earlyErrors_strict
      (p := [.field "statements", .index 0, .field "super_class"]) ht rfl .delete).2 (.delete _ ?_)
    exact ⟨_, List.mem_of_getElem? (i := 0) rfl, .ofClass (.inl rfl)⟩
  · intro h
    have h := (mem_earlyErrors_strict (p := [.field "statements", .index 1, .field "name"])
      ht rfl (.binding "eval")).1 h
    cases h with
    | binding _ h =>
      -- around the name are the function and the script, which has no directive
      obtain ⟨a, ha, h⟩ := h
      change a ∈ [_, _] at ha
      simp only [List.mem_cons, List.not_mem_nil, or_false] at ha
      rcases ha with rfl | rfl
      · rcases h with h | ⟨h, -⟩ | (h | h) | ⟨h, -, -⟩ <;> cases h
      · rcases h with h | ⟨-, ds, hds, hmem⟩ | (h | h) | ⟨h, -, -⟩
        · cases h
        · cases hds
          cases hmem
        all_goals cases h
  · refine (mem_earlyErrors_strict (p := [.field "statements", .index 1]) ht rfl
      (.parameters "a")).2 ?_
    refine .parameters (by decide) rfl (p := [.field "items", .index 0])
      (q := [.field "items", .index 1]) (by decide) (.item rfl (.plain "a"))
      (.item rfl (.plain "a")) ?_
    exact .directive rfl ⟨_, rfl, List.mem_cons_self⟩
  · refine (mem_earlyErrors_strict (p := [.field "statements", .index 1, .field "body",
      .field "statements", .index 0, .field "expression"]) ht rfl .delete).2 (.delete _ ?_)
    exact ⟨_, List.mem_of_getElem? (i := 2) rfl, .function rfl rfl ⟨_, rfl, List.mem_cons_self⟩⟩

end Whittle
