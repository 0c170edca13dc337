import Whittle.Proofs.Validity.Jumps

/-!
# Where `super` stands

What `super` means is a matter of the nearest function around it that is no arrow function: its
properties may be used in methods and accessors, and it may be called in the constructor of a
class that extends another. The context that is handed down says just that, though it learns of
the constructor step by step, from the class to its element and from there to the method.
-/

namespace Whittle

open Grammar Whittle.Language

/-! ## What the nodes around say -/

namespace Ancestor

/-- A function, but no arrow function, that is entered through its parameters or its body. -/
def isHome (a : Ancestor) : Bool := a.isFunctionPart && a.kind != .arrowExpression

/-- A method or an accessor. -/
def isMethod (a : Ancestor) : Bool := [.method, .getter, .setter].contains a.kind

/-- What is entered is the node, or a list that it is in. -/
def Holds (a : Ancestor) (n : Tree) : Prop :=
  ∃ v, a.node.childAt (.field a.field) = .ok v ∧ (v = n ∨ ∃ items, v = .list items ∧ n ∈ items)

end Ancestor

/-- The nearest function among some nodes, the innermost of which comes first, that is no arrow
function. -/
def home? (as : List Ancestor) : Option Ancestor := as.find? (·.isHome)

/-- Three nodes, each in the next one, are the constructor of a class that extends another, the
element that it is the method of, and the class. -/
structure IsDerivedConstructor (m e c : Ancestor) : Prop where
  name : m.node.childAt (.field "name") = .ok (.node .staticPropertyName [.str "constructor"])
  element : e.kind = .classElement
  method : e.field = "method"
  notStatic : e.isSet "is_static" = false
  ofClass : c.kind = .classDeclaration ∨ c.kind = .classExpression
  elements : c.field = "elements"
  heritage : ∃ superClass, c.node.childAt (.field "super_class") = .ok superClass ∧
    superClass ≠ .absent

/-- The nearest function that is no arrow function is the constructor of a class that extends
another. -/
def InConstructor (as : List Ancestor) : Prop :=
  ∃ m e c outer, as.dropWhile (!·.isHome) = m :: e :: c :: outer ∧ IsDerivedConstructor m e c

/-- A use of `super` where it has no meaning. The nodes around it are `as`, the innermost
first. -/
inductive SuperMisplaced (as : List Ancestor) : Tree → Violation → Prop
  /-- A property of `super`, in no method or accessor. -/
  | property {k : Kind} {fields args : List Tree}
    (hk : k ∈ [.computedMemberExpression, .computedMemberAssignmentTarget,
      .staticMemberExpression, .staticMemberAssignmentTarget])
    (hobject : (Tree.node k fields).childAt (.field "object") = .ok (.node .super args))
    (h : ¬ ∃ m, home? as = some m ∧ m.isMethod = true) :
    SuperMisplaced as (.node k fields) .superPropertyOutside
  /-- A call of `super`, in no constructor of a class that extends another. -/
  | call {fields args : List Tree}
    (hcallee : (Tree.node .callExpression fields).childAt (.field "callee") =
      .ok (.node .super args))
    (h : ¬ InConstructor as) :
    SuperMisplaced as (.node .callExpression fields) .superCallOutside

/-! ## Nodes one around the other -/

/-- The outermost node on a path is the value that the path begins at, or an item of it. -/
theorem outermost_ancestor {t : Tree} {p : Path} (ht : t.Walkable) {a : Ancestor}
    (ha : a ∈ (t.ancestors p).getLast?) :
    a.node = t ∨ ∃ items, t = .list items ∧ a.node ∈ items := by
  induction p generalizing t with
  | nil => cases ha
  | cons s p ih =>
    cases hv : t.childAt s with
    | error e => simp [Tree.ancestors, hv] at ha
    | ok v =>
      rw [ancestors_cons hv] at ha
      cases t with
      | node k fields =>
        obtain ⟨name, rfl, -⟩ := childAt_node.1 hv
        rw [Tree.entered, List.getLast?_concat] at ha
        cases ha
        exact .inl rfl
      | list items =>
        obtain ⟨j, rfl, hj⟩ := childAt_list.1 hv
        rw [show (Tree.list items).entered (.index j) = [] from rfl, List.append_nil] at ha
        have hmem := List.mem_of_getElem? hj
        rcases ih (ht.child hv) ha with hnode | ⟨items', rfl, -⟩
        · exact .inr ⟨items, rfl, hnode ▸ hmem⟩
        · -- no list is an item of a list
          rcases ht _ hmem with hw | hw
          · cases hw
          · exact hw.elim
      | _ => exact (childAt_leaf rfl hv).elim

/-- Each node on a path holds the one after it. -/
theorem holds_ancestors {t : Tree} {p : Path} (ht : t.Walkable) :
    (t.ancestors p).IsChain fun a b => b.Holds a.node := by
  induction p generalizing t with
  | nil => exact .nil
  | cons s p ih =>
    cases hv : t.childAt s with
    | error e => simp [Tree.ancestors, hv]
    | ok v =>
      rw [ancestors_cons hv, List.isChain_append]
      refine ⟨ih (ht.child hv), ?_, fun a ha b hb => ?_⟩
      · unfold Tree.entered
        split <;> simp
      · have houter := outermost_ancestor (ht.child hv) ha
        unfold Tree.entered at hb
        split at hb
        · cases hb
          refine ⟨v, hv, ?_⟩
          rcases houter with h | h
          · exact .inl h.symm
          · exact .inr h
        · cases hb

/-! ## What the context says -/

namespace Ancestor

/-- The elements of a class that extends another. -/
def isHeir (a : Ancestor) : Bool :=
  match a.kind, a.fields with
  | .classDeclaration, [_, superClass, _] | .classExpression, [_, superClass, _] =>
    a.field == "elements" && !superClass.isAbsent
  | _, _ => false

/-- An element of a class that is not static and has the name of a constructor. -/
def isConstructor (a : Ancestor) : Bool :=
  match a.kind, a.fields with
  | .classElement, [isStatic, method] => !isStatic.isTrue && method.isConstructor? == some true
  | _, _ => false

end Ancestor

/-- What a context says of `super`, and of the class and the element that are entered. -/
structure Rights where
  property : Bool := false
  call : Bool := false
  heir : Bool := false
  constructor : Bool := false

def Context.rights (c : Context) : Rights :=
  { property := c.superProperty, call := c.superCall, heir := c.derivedClass
    constructor := c.derivedConstructor }

/-- What a node makes of the rights around it. -/
def Rights.enter (r : Rights) (a : Ancestor) : Rights where
  property := if a.isHome then a.isMethod else r.property
  call := if a.isHome then a.isMethod && r.constructor else r.call
  heir := a.isHeir
  constructor := r.heir && a.isConstructor

/-- What the nodes around say of `super`. -/
def Rights.around (as : List Ancestor) : Rights := as.foldr (fun a r => r.enter a) {}

variable {a : Ancestor} {as : List Ancestor} {c inner : Context} {r : Rights}

/-- A node that is no function, class or element of a class hands on what `super` means. -/
theorem rights_of_plain (h : a.isHome = false) (hheir : a.isHeir = false)
    (hconstructor : a.isConstructor = false) (hinner : inner.rights = c.inherited.rights) :
    inner.rights = c.rights.enter a := by
  rw [hinner, Rights.enter, h, hheir, hconstructor, Bool.and_false]
  rfl

theorem ofFunction_rights {inBody isAsync isGenerator superProperty superCall : Bool} {body : Tree}
    (h : c.ofFunction inBody isAsync isGenerator superProperty superCall body = some inner) :
    inner.rights = { property := superProperty, call := superCall } := by
  obtain ⟨_, -, h⟩ := Option.bind_eq_some_iff.1 h
  cases h
  rfl

theorem ofFlags_rights {inBody superProperty superCall : Bool} {isAsync isGenerator body : Tree}
    (h : (do
      c.ofFunction inBody (← isAsync.flag?) (← isGenerator.flag?) superProperty superCall body)
      = some inner) :
    inner.rights = { property := superProperty, call := superCall } := by
  obtain ⟨_, -, h⟩ := Option.bind_eq_some_iff.1 h
  obtain ⟨_, -, h⟩ := Option.bind_eq_some_iff.1 h
  exact ofFunction_rights h

theorem ofArrow_rights {inBody isAsync : Bool} {body : Tree}
    (h : c.ofArrow inBody isAsync body = some inner) : inner.rights = c.rights := by
  obtain ⟨_, -, h⟩ := Option.bind_eq_some_iff.1 h
  cases h
  rfl

theorem ofClass_rights {isDeclaration : Bool} {superClass : Tree} {field : String} :
    (c.ofClass isDeclaration superClass field).rights =
      { property := c.superProperty, call := c.superCall
        heir := field == "elements" && !superClass.isAbsent } := by
  unfold Context.ofClass
  split
  · rename_i h
    rw [h]
    rfl
  · rename_i h
    rw [Bool.eq_false_iff.2 h]
    split <;> rfl

/-- A field of a function, other than an arrow function, is for its parameters or its body, or it
is not. -/
theorem rights_of_part {part : Bool} {x y : Option Context} (hpart : a.isHome = part)
    (hheir : a.isHeir = false) (hconstructor : a.isConstructor = false)
    (h : (if part = true then x else y) = some inner)
    (hx : x = some inner → inner.rights =
      { property := a.isMethod, call := a.isMethod && c.derivedConstructor })
    (hy : y = some inner → inner.rights = c.inherited.rights) :
    inner.rights = c.rights.enter a := by
  cases part with
  | true =>
    rw [hx h, Rights.enter, hpart, hheir, hconstructor, Bool.and_false]
    rfl
  | false => exact rights_of_plain hpart hheir hconstructor (hy h)

theorem Ancestor.isHome_eq (ha : a.field ∈ a.kind.fieldNames) (hk : a.kind ≠ .arrowExpression) :
    a.isHome = a.kind.hasPart a.field := by
  rw [isHome, isFunctionPart_eq ha, bne_iff_ne.2 hk, Bool.and_true]

/-- What the context of a field says of `super` is what the node makes of what is said around
it. -/
theorem ofField_rights (ha : a.field ∈ a.kind.fieldNames)
    (h : c.ofField a.kind a.fields a.field = some inner) : inner.rights = c.rights.enter a := by
  obtain ⟨k, fields, field⟩ := a
  dsimp only at ha h
  unfold Context.ofField at h
  split at h
  case h_1 | h_12 =>
    cases h
    exact rights_of_plain rfl rfl rfl rfl
  case h_2 =>
    obtain ⟨_, -, h⟩ := Option.bind_eq_some_iff.1 h
    cases h
    exact rights_of_plain rfl rfl rfl rfl
  case h_3 =>
    refine rights_of_part (Ancestor.isHome_eq ha nofun) rfl rfl h (fun h => ?_) fun h => ?_
    · exact ofFlags_rights h
    · split at h <;> cases h <;> rfl
  case h_4 | h_5 =>
    refine rights_of_part (Ancestor.isHome_eq ha nofun) rfl rfl h (fun h => ?_) fun h => ?_
    · exact ofFlags_rights h
    · cases h
      rfl
  case h_6 | h_7 =>
    refine rights_of_part (Ancestor.isHome_eq ha nofun) rfl rfl h (fun h => ?_) fun h => ?_
    · exact ofFunction_rights h
    · cases h
      rfl
  case h_8 =>
    refine rights_of_plain (Bool.and_false _) rfl rfl ?_
    dsimp only at h
    split at h
    · obtain ⟨_, -, h⟩ := Option.bind_eq_some_iff.1 h
      exact ofArrow_rights h
    · cases h
      rfl
  case h_9 | h_10 =>
    cases h
    rw [ofClass_rights]
    simp [Rights.enter, Ancestor.isHome, Ancestor.isFunctionPart, Ancestor.isHeir,
      Ancestor.isConstructor, Context.rights]
  case h_11 =>
    obtain ⟨isStatic, hstatic, h⟩ := Option.bind_eq_some_iff.1 h
    obtain ⟨isConstructor, hconstructor, h⟩ := Option.bind_eq_some_iff.1 h
    cases h
    rw [← isTrue_of_flag? hstatic]
    simp [Rights.enter, Ancestor.isHome, Ancestor.isFunctionPart, Ancestor.isHeir,
      Ancestor.isConstructor, Context.rights, Context.inherited, hconstructor, Bool.and_assoc]
  case h_13 | h_14 | h_15 | h_16 | h_17 =>
    cases h
    exact rights_of_plain rfl rfl rfl rfl
  case h_18 =>
    obtain ⟨_, -, h⟩ := Option.bind_eq_some_iff.1 h
    cases h
    exact rights_of_plain rfl rfl rfl rfl
  case h_29 =>
    cases h
    refine rights_of_plain ?_ ?_ ?_ rfl
    · have hpart : (⟨k, fields, field⟩ : Ancestor).isFunctionPart = false := by
        grind [Ancestor.isFunctionPart]
      rw [Ancestor.isHome, hpart, Bool.false_and]
    · grind [Ancestor.isHeir]
    · grind [Ancestor.isConstructor]
  all_goals cases h

/-- The context of a node says of `super` what the nodes around it say. -/
theorem rights_eq_around (has : ∀ a ∈ as, a.Fits) (h : contextIn? {} as = some c) :
    c.rights = Rights.around as := by
  induction as generalizing c with
  | nil =>
    cases h
    rfl
  | cons a as ih =>
    obtain ⟨ha, has⟩ := List.forall_mem_cons.1 has
    obtain ⟨outer, houter, h⟩ := Option.bind_eq_some_iff.1 h
    rw [ofField_rights ha.field h, ih has houter]
    rfl

/-! ## Constructors -/

/-- Which methods and accessors have the name of a constructor. -/
theorem isConstructor?_eq_true {k : Kind} {fields : List Tree}
    (h : FitsType false methodDefinition (.node k fields)) :
    (Tree.node k fields).isConstructor? = some true ↔
      (Tree.node k fields).childAt (.field "name") =
        .ok (.node .staticPropertyName [.str "constructor"]) := by
  obtain ⟨name, hname, b, hb⟩ := exists_isStaticName? "constructor" h
  have hchild : (Tree.node k fields).childAt (.field "name") = .ok name := by
    refine childAt_node.2 ⟨"name", rfl, ?_⟩
    unfold Tree.methodName? at hname
    split at hname
    case h_1 heq =>
      cases heq
      cases hname
      exact List.mem_of_getElem? (i := 2) rfl
    case h_2 heq | h_3 heq =>
      cases heq
      cases hname
      exact List.mem_of_getElem? (i := 0) rfl
    case h_4 => cases hname
  rw [hchild, Except.ok.injEq, Tree.isConstructor?, hname]
  constructor
  · intro h
    change name.isStaticName? "constructor" = some true at h
    unfold Tree.isStaticName? at h
    split at h
    · rw [eq_of_beq (Option.some.inj h)]
    all_goals cases h
  · rintro rfl
    rfl

namespace Ancestor

/-- The elements of a class are entered, and it extends another. -/
theorem isHeir_iff (ha : a.Fits) : a.isHeir = true ↔
    (a.kind = .classDeclaration ∨ a.kind = .classExpression) ∧ a.field = "elements" ∧
      ∃ superClass, a.node.childAt (.field "super_class") = .ok superClass ∧
        superClass ≠ .absent := by
  have habsent : ∀ u : Tree, u.isAbsent = false ↔ u ≠ .absent := fun u => by
    cases u <;> simp [Tree.isAbsent]
  obtain ⟨k, fields, field⟩ := a
  by_cases hk : k = .classDeclaration ∨ k = .classExpression
  · obtain ⟨superClass, hheir, hchild⟩ : ∃ superClass : Tree,
        (⟨k, fields, field⟩ : Ancestor).isHeir = (field == "elements" && !superClass.isAbsent) ∧
        (Tree.node k fields).childAt (.field "super_class") = .ok superClass := by
      rcases hk with rfl | rfl
      all_goals
        obtain ⟨name, superClass, elements, rfl, -⟩ := (fit_three rfl rfl).1 ha.fields
        exact ⟨superClass, rfl,
          childAt_node.2 ⟨_, rfl, List.mem_of_getElem? (i := 1) rfl⟩⟩
    simp [hheir, node, hchild, habsent, hk]
  · refine iff_of_false ?_ fun h => hk h.1
    obtain ⟨hdeclaration, hexpression⟩ := not_or.1 hk
    simp [isHeir, hdeclaration, hexpression]

/-- The element of a class that is entered to a method or an accessor. -/
theorem isConstructor_iff {m : Ancestor} (ha : a.Fits) (hm : a.Holds m.node) :
    (m.isMethod && a.isConstructor) = true ↔
      a.kind = .classElement ∧ a.field = "method" ∧ a.isSet "is_static" = false ∧
      m.node.childAt (.field "name") = .ok (.node .staticPropertyName [.str "constructor"]) := by
  obtain ⟨k, fields, field⟩ := a
  by_cases hk : k = .classElement
  swap
  · refine iff_of_false ?_ fun h => hk h.1
    simp [isConstructor, hk]
  subst hk
  obtain ⟨isStatic, method, rfl, hstatic, hmethod⟩ := (fit_two rfl rfl).1 ha.fields
  obtain ⟨isStatic, rfl⟩ := fitsType_boolean.1 hstatic
  obtain ⟨l, fs, rfl, hl, -⟩ :=
    fitsType_kinds rfl [.method, .getter, .setter] (by decide) hmethod
  have hset : (⟨.classElement, [.bool isStatic, .node l fs], field⟩ : Ancestor).isSet
      "is_static" = isStatic := by
    rw [isSet_eq (List.mem_of_getElem? (i := 0) rfl)]
    cases isStatic <;> rfl
  obtain ⟨v, hv, hnode⟩ := hm
  obtain ⟨name, heq, hmem⟩ := childAt_node.1 hv
  obtain rfl : field = name := by simpa using heq
  rw [show Kind.classElement.fieldNames = ["is_static", "method"] from rfl] at hmem
  -- the other field holds no node
  obtain ⟨rfl, hnode⟩ : field = "method" ∧ Tree.node l fs = m.node := by
    simp only [List.zip_cons_cons, List.zip_nil_right, List.mem_cons, Prod.mk.injEq,
      List.not_mem_nil, or_false] at hmem
    rcases hmem with ⟨-, rfl⟩ | ⟨hfield, rfl⟩
    · rcases hnode with h | ⟨_, h, -⟩ <;> cases h
    · rcases hnode with h | ⟨_, h, -⟩
      · exact ⟨hfield, h⟩
      · cases h
  have hkind : m.isMethod = true := by
    cases hnode
    exact List.contains_iff_mem.2 hl
  rw [hkind, ← hnode, ← isConstructor?_eq_true hmethod, hset]
  cases isStatic <;> simp [isConstructor, Tree.isTrue]

end Ancestor

/-! ## The rights of a node -/

/-- Properties of `super` are for the nearest function, if it is a method or an accessor. -/
theorem around_property : (Rights.around as).property = (home? as).any (·.isMethod) := by
  induction as with
  | nil => rfl
  | cons a as ih =>
    change (if a.isHome then a.isMethod else (Rights.around as).property) = _
    rw [home?, List.find?_cons]
    cases h : a.isHome with
    | true => rfl
    | false => exact ih

/-- Calls of `super` are for the nearest function, if it is a constructor. -/
theorem around_call (has : ∀ a ∈ as, a.Fits) (hholds : as.IsChain fun a b => b.Holds a.node) :
    (Rights.around as).call = true ↔ InConstructor as := by
  induction as with
  | nil => exact iff_of_false nofun fun ⟨m, e, c, outer, h, _⟩ => by cases h
  | cons m as ih =>
    obtain ⟨-, has⟩ := List.forall_mem_cons.1 has
    change (if m.isHome then m.isMethod && (Rights.around as).constructor
      else (Rights.around as).call) = true ↔ _
    cases h : m.isHome with
    | false =>
      rw [InConstructor, List.dropWhile_cons_of_pos (by rw [h]; rfl)]
      exact ih has hholds.tail
    | true =>
      rw [InConstructor, List.dropWhile_cons_of_neg (by rw [h]; nofun), if_pos rfl]
      -- the element and the class are the next two nodes
      match as with
      | [] => exact iff_of_false (by simp [Rights.around]) (by simp)
      | [e] => exact iff_of_false (by simp [Rights.around, Rights.enter]) (by simp)
      | e :: c :: outer =>
        have he : e.Holds m.node := (List.isChain_cons_cons.1 hholds).1
        change (m.isMethod && (c.isHeir && e.isConstructor)) = true ↔ _
        rw [Bool.and_left_comm, Bool.and_eq_true, Ancestor.isConstructor_iff (has e (by simp)) he,
          Ancestor.isHeir_iff (has c (by simp))]
        constructor
        · rintro ⟨⟨ofClass, elements, heritage⟩, element, method, notStatic, name⟩
          exact ⟨m, e, c, outer, rfl, name, element, method, notStatic, ofClass, elements, heritage⟩
        · rintro ⟨_, _, _, _, ⟨⟩, h⟩
          exact ⟨⟨h.ofClass, h.elements, h.heritage⟩, h.element, h.method, h.notStatic, h.name⟩

/-! ## Reported uses of `super` -/

variable {k : Kind} {fields : List Tree} {v : Violation} {own : List EarlyError}

theorem SuperMisplaced.mem_reporters (h : SuperMisplaced as (.node k fields) v) :
    k ∈ v.reporters := by
  cases h with
  | property hk => exact hk
  | call => exact List.mem_cons_self

/-- What the members of all kinds report of `super`. -/
theorem mem_member (hk : k ∈ Violation.superPropertyOutside.reporters)
    (hfields : FieldsFit false k k.slots fields) (hown : nodeErrors c k fields = some own) :
    ∃ object, (Tree.node k fields).childAt (.field "object") = .ok object ∧
      (Violation.superPropertyOutside.here ∈ own ↔
        Violation.superPropertyOutside.here ∈ Rules.member c object) := by
  simp only [Violation.reporters, List.mem_cons, List.not_mem_nil, or_false] at hk
  obtain hcomputed | hstatic :
      (k = .computedMemberExpression ∨ k = .computedMemberAssignmentTarget) ∨
      (k = .staticMemberExpression ∨ k = .staticMemberAssignmentTarget) := by
    rwa [or_assoc]
  · rcases hcomputed with rfl | rfl
    all_goals
      obtain ⟨object, expression, rfl, -⟩ := (fit_two rfl rfl).1 hfields
      cases hown
      exact ⟨object, childAt_node.2 ⟨_, rfl, List.mem_of_getElem? (i := 0) rfl⟩, .rfl⟩
  · rcases hstatic with rfl | rfl
    all_goals
      obtain ⟨object, property, rfl, -, hproperty⟩ := (fit_two rfl rfl).1 hfields
      obtain ⟨name, rfl⟩ := fitsType_string.1 hproperty
      cases hown
      refine ⟨object, childAt_node.2 ⟨_, rfl, List.mem_of_getElem? (i := 0) rfl⟩, ?_⟩
      -- the name is spelled wrong or not, which is another rule
      rw [List.mem_append, or_iff_left]
      intro h
      rcases mem_spelling h with h | h <;> cases h

/-- A member reports `super` unless it is in a method or an accessor. -/
theorem property_mem_iff (hc : c.rights = Rights.around as)
    (hfields : FieldsFit false k k.slots fields) (hown : nodeErrors c k fields = some own) :
    Violation.superPropertyOutside.here ∈ own ↔
      SuperMisplaced as (.node k fields) .superPropertyOutside := by
  by_cases hk : k ∈ Violation.superPropertyOutside.reporters
  swap
  · exact iff_of_false (fun h => hk (reports_nodeErrors c k fields own hown _ h).mem)
      fun h => hk h.mem_reporters
  obtain ⟨object, hchild, hmem⟩ := mem_member hk hfields hown
  rw [hmem, Rules.member, mem_when, Bool.and_eq_true, isKind_iff, Bool.not_eq_true',
    show c.superProperty = (Rights.around as).property from congrArg Rights.property hc,
    around_property, Option.any_eq_false]
  constructor
  · rintro ⟨⟨⟨fs, rfl⟩, h⟩, -⟩
    refine .property hk hchild ?_
    rintro ⟨m, hm, hmethod⟩
    exact absurd hmethod (by simpa using h m hm)
  · intro h
    cases h with
    | property _ hobject h =>
      refine ⟨⟨⟨_, Except.ok.inj (hchild.symm.trans hobject)⟩, fun m hm => ?_⟩, rfl⟩
      simpa using fun hmethod => h ⟨m, hm, hmethod⟩

/-- A call reports `super` unless it is in a constructor. -/
theorem call_mem_iff (hc : c.rights = Rights.around as) (has : ∀ a ∈ as, a.Fits)
    (hholds : as.IsChain fun a b => b.Holds a.node)
    (hfields : FieldsFit false k k.slots fields) (hown : nodeErrors c k fields = some own) :
    Violation.superCallOutside.here ∈ own ↔
      SuperMisplaced as (.node k fields) .superCallOutside := by
  by_cases hk : k = .callExpression
  swap
  · exact iff_of_false
      (fun h => hk (List.mem_singleton.1 (reports_nodeErrors c k fields own hown _ h).mem))
      fun h => hk (List.mem_singleton.1 h.mem_reporters)
  subst hk
  obtain ⟨callee, args, rfl, -⟩ := (fit_two rfl rfl).1 hfields
  cases hown
  rw [mem_when, here_inj, Bool.and_eq_true, isKind_iff, Bool.not_eq_true', ← Bool.not_eq_true,
    show c.superCall = (Rights.around as).call from congrArg Rights.call hc,
    around_call has hholds]
  have hchild : (Tree.node .callExpression [callee, args]).childAt (.field "callee") =
      .ok callee := childAt_node.2 ⟨_, rfl, List.mem_of_getElem? (i := 0) rfl⟩
  constructor
  · rintro ⟨⟨⟨fs, rfl⟩, h⟩, -⟩
    exact .call hchild h
  · intro h
    cases h with
    | call hcallee h =>
      exact ⟨⟨⟨_, Except.ok.inj (hchild.symm.trans hcallee)⟩, h⟩, rfl⟩

/-- `super` is reported at just those nodes that use it where it has no meaning. -/
theorem mem_earlyErrors_super {t n : Tree} {p : Path} (ht : t.wellTyped = true)
    (hn : t.get p = .ok n) (hv : v = .superPropertyOutside ∨ v = .superCallOutside) :
    ⟨p, v⟩ ∈ earlyErrors t ↔ SuperMisplaced (t.ancestors p) n v := by
  have hwalk := (wellTyped_iff.1 ht).walkable
  have hfits := hwalk.ancestors (p := p)
  have hnode : ∀ {k fields c own}, n = .node k fields → contextIn? {} (t.ancestors p) = some c →
      nodeErrors c k fields = some own →
      (v.here ∈ own ↔ SuperMisplaced (t.ancestors p) (.node k fields) v) := by
    rintro k fields c own rfl hc hown
    have hrights := rights_eq_around hfits hc
    rcases hv with rfl | rfl
    · exact property_mem_iff hrights (hwalk.get hn) hown
    · exact call_mem_iff hrights hfits (holds_ancestors hwalk) (hwalk.get hn) hown
  rw [mem_earlyErrors_at ht hn (by rcases hv with rfl | rfl <;> rfl)]
  constructor
  · rintro ⟨k, fields, c, own, rfl, -, hc, hown, h⟩
    exact (hnode rfl hc hown).1 h
  · intro h
    obtain ⟨k, fields, rfl⟩ : ∃ k fields, n = .node k fields := by
      cases h <;> exact ⟨_, _, rfl⟩
    obtain ⟨c, own, hc, hown⟩ := exists_contextAt ht hn
    exact ⟨k, fields, c, own, rfl, h.mem_reporters, hc, hown, (hnode rfl hc hown).2 h⟩

/-- The constructor of a class that extends another holds a second class, which extends none. Its
only method calls `super` in its name and in its body. -/
def nestedClasses : Tree :=
  .node .script [.list [], .list [.node .classDeclaration [.node .bindingIdentifier [.str "A"],
    .node .thisExpression [], .list [.node .classElement [.bool false, .node .method [.bool false,
      .bool false, .node .staticPropertyName [.str "constructor"],
      .node .formalParameters [.list [], .absent],
      .node .functionBody [.list [], .list [.node .expressionStatement [.node .classExpression [
        .absent, .absent, .list [.node .classElement [.bool false, .node .method [.bool false,
          .bool false,
          .node .computedPropertyName [.node .callExpression [.node .super [], .list []]],
          .node .formalParameters [.list [], .absent],
          .node .functionBody [.list [], .list [
            .node .expressionStatement [.node .callExpression [.node .super [], .list []]],
            .node .expressionStatement [.node .staticMemberExpression [
              .node .super [], .str "x"]]]]]]]]]]]]]]]]]

/-- The path of the inner method. -/
def innerMethod : Path :=
  [.field "statements", .index 0, .field "elements", .index 0, .field "method", .field "body",
    .field "statements", .index 0, .field "expression", .field "elements", .index 0,
    .field "method"]

/-- The name of the inner method is still in the outer constructor, and its body is not. -/
theorem mem_earlyErrors_super_nestedClasses :
    nestedClasses.wellTyped = true ∧
    ⟨innerMethod ++ [.field "name", .field "expression"], .superCallOutside⟩ ∉
      earlyErrors nestedClasses ∧
    ⟨innerMethod ++ [.field "body", .field "statements", .index 0, .field "expression"],
      .superCallOutside⟩ ∈ earlyErrors nestedClasses ∧
    ⟨innerMethod ++ [.field "body", .field "statements", .index 1, .field "expression"],
      .superPropertyOutside⟩ ∉ earlyErrors nestedClasses := by
  have ht : nestedClasses.wellTyped = true := by decide
  refine ⟨ht, ?_, ?_, ?_⟩
  · rw [mem_earlyErrors_super ht rfl (.inr rfl)]
    intro h
    cases h with
    | call _ h =>
      exact h ⟨_, _, _, _, rfl, rfl, rfl, rfl, rfl, .inl rfl, rfl, _, rfl, nofun⟩
  · refine (mem_earlyErrors_super ht rfl (.inr rfl)).2 (.call rfl ?_)
    rintro ⟨m, e, c, outer, ⟨⟩, h⟩
    cases h.name
  · rw [mem_earlyErrors_super ht rfl (.inl rfl)]
    intro h
    cases h with
    | property _ _ h => exact h ⟨_, rfl, rfl⟩

end Whittle
