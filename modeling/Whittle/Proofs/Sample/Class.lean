import Whittle.Proofs.Sample.Function

/-!
# Random classes and objects are placed

The elements of a class are strict code. At most one of them is a constructor: none of the names
that methods are given otherwise is that of a constructor.
-/

namespace Whittle.Sample

open Grammar Whittle.Language

variable {σ : Type} {rs : RandomSource σ} {m : Makers σ} {levels n k : Nat} {c : Scene}
  {C : Context → Prop} {name : Option Tree}

/-! ## Elements -/

/-- An element that is neither a constructor nor a static method called `prototype`. -/
inductive OrdinaryElement : Tree → Prop
  | intro {isStatic : Bool} {method name : Tree} (hname : method.methodName? = some name)
    (h : OrdinaryName name) : OrdinaryElement (.node .classElement [.bool isStatic, method])

/-- An element that is a constructor, no more special than it may be. -/
inductive ConstructorElement : Tree → Prop
  | intro {params body : Tree} : ConstructorElement (.node .classElement [.bool false,
      .node .method [.bool false, .bool false, .node .staticPropertyName [.str "constructor"],
        params, body]])

/-- Elements none of which is a constructor, after any number of constructors. -/
theorem classElements_ordinary {es : List Tree} (h : ∀ e ∈ es, OrdinaryElement e) (i seen : Nat) :
    Rules.classElements i seen es = some [] := by
  induction es generalizing i with
  | nil => rfl
  | cons e es ih =>
    have hrest := ih (fun e he => h e (List.mem_cons_of_mem _ he)) (i + 1)
    obtain ⟨hname, hconstructor, hprototype⟩ := h e List.mem_cons_self
    rename_i isStatic method name
    cases isStatic <;>
      simp [Rules.classElements, Tree.isConstructor?, hname, hconstructor, hprototype,
        EarlyError.when, hrest]

/-- One of the elements may be a constructor. -/
theorem classElements_constructor {before after : List Tree} {e : Tree}
    (hbefore : ∀ e ∈ before, OrdinaryElement e) (he : ConstructorElement e)
    (hafter : ∀ e ∈ after, OrdinaryElement e) (i : Nat) :
    Rules.classElements i 0 (before ++ e :: after) = some [] := by
  induction before generalizing i with
  | nil =>
    have hrest := classElements_ordinary hafter (i + 1) 1
    obtain ⟨-⟩ := he
    simp [Rules.classElements, Tree.isConstructor?, Tree.methodName?, Tree.isStaticName?,
      Rules.constructorFaults, Tree.flag?, EarlyError.when, hrest]
  | cons b before ih =>
    have hrest := ih (fun e he => hbefore e (List.mem_cons_of_mem _ he)) (i + 1)
    obtain ⟨hname, hconstructor, hprototype⟩ := hbefore b List.mem_cons_self
    rename_i isStatic method name
    cases isStatic <;>
      simp [Rules.classElements, Tree.isConstructor?, hname, hconstructor, hprototype,
        EarlyError.when, hrest]

/-- The contexts of the elements of a class; `derived` tells whether they have to be those of a
class that extends another one. -/
def OfElement (derived : Bool) (n : Nat) (c : Scene) (x : Context) : Prop :=
  Agrees n c x ∧ (derived = true → x.derivedClass = true)

section Classes

variable (hm : MakesExpressions m) (hs : MakesStatements m)

include hm hs in
theorem yields_classElement : Yields n (classElement rs m levels c) fun t =>
    Placed (Agrees n c) (.node .classElement) t ∧ OrdinaryElement t := by
  refine (yields_flag 30).bind fun isStatic ⟨b, hb⟩ => ?_
  refine Yields.bind (yields_method hm hs) ?_
  rintro method ⟨hmethod, name, hname, hordinary⟩
  subst hb
  have hnode : Placed (Agrees n c) (.node .classElement)
      (.node .classElement [.bool b, method]) := by
    have hconstructor : method.isConstructor? = some false := by
      simp [Tree.isConstructor?, hname, hordinary.1]
    refine placed_node (.cons (.leaf (fitsType_boolean.2 ⟨_, rfl⟩) rfl) (.cons ?_ .nil))
      fun _ _ => rfl
    refine hmethod.field fun x hx => ⟨_, ?_, ({ hx with } : Agrees n c
      { x.inherited with derivedConstructor := x.derivedClass && !b && false })⟩
    simp [Context.ofField, Tree.flag?, hconstructor]
  refine (yields_self hnode).mono ?_
  rintro t rfl
  exact ⟨hnode, .intro hname hordinary⟩

include hm hs in
/-- A constructor calls `super` only if the class is derived. -/
theorem yields_withConstructor {derived : Bool} {elements : List Tree}
    (h : ∀ e ∈ elements, Placed (Agrees n c) (.node .classElement) e ∧ OrdinaryElement e) :
    Yields n (withConstructor rs m levels c derived elements) fun es =>
      (∀ e ∈ es, Placed (OfElement derived n c) (.node .classElement) e) ∧
        Rules.classElements 0 0 es = some [] := by
  have hname : Placed (Agrees n c) (.node .staticPropertyName)
      (.node .staticPropertyName [.str "constructor"]) :=
    placed_plain (fun _ _ => rfl) (fun _ _ => rfl) (.cons (.str _) .nil)
  refine Yields.bind (yields_self hname) ?_
  rintro _ rfl
  refine Yields.bind (yields_plainMethod hm hs (hname.member isUnion_propertyName rfl)) ?_
  rintro _ ⟨hmethod, params, body, rfl⟩
  refine (yields_upTo elements.length).bind fun i _ => ?_
  have hnode : Placed (OfElement derived n c) (.node .classElement) (.node .classElement
      [.bool false, .node .method [.bool false, .bool false,
        .node .staticPropertyName [.str "constructor"], params, body]]) := by
    refine placed_node (.cons (.leaf (fitsType_boolean.2 ⟨_, rfl⟩) rfl) (.cons ?_ .nil))
      fun _ _ => rfl
    refine (hmethod.member isUnion_methodDefinition rfl).field fun x hx => ⟨_, rfl, ?_⟩
    exact ⟨{ hx.1 with }, fun hd => by simp [hx.2 hd]⟩
  refine Yields.bind (yields_self hnode) ?_
  rintro _ rfl
  refine .pure fun _ _ => ⟨?_, ?_⟩
  · intro e he
    obtain he | he := List.mem_append.1 he
    · exact (h e (List.mem_of_mem_take he)).1.weaken fun x hx => hx.1
    · obtain rfl | he := List.mem_cons.1 he
      · exact hnode
      · exact (h e (List.mem_of_mem_drop he)).1.weaken fun x hx => hx.1
  · exact classElements_constructor (fun e he => (h e (List.mem_of_mem_take he)).2) .intro
      (fun e he => (h e (List.mem_of_mem_drop he)).2) 0

/-! ## Classes -/

/-- The scene in a class. -/
def Scene.ofClass (c : Scene) : Scene := { c with strict := true }

/-- The heritage and the elements of a class that breaks no rule. -/
structure MadeClass (n : Nat) (c : Scene) (superClass : Tree) (elements : List Tree) : Prop where
  heritage : superClass = .absent ∨ Placed (Agrees n c.ofClass) expression superClass
  members : ∀ e ∈ elements,
    Placed (OfElement (!superClass.isAbsent) n c.ofClass) (.node .classElement) e
  rules : Rules.classElements 0 0 elements = some []

include hm hs in
theorem yields_classParts : Yields n (classParts rs m levels c) fun parts =>
    ∃ elements, parts.2 = .list elements ∧ MadeClass n c parts.1 elements := by
  refine Yields.bind (makes_perhaps 30 (yields_part hm)) fun superClass hsuper => ?_
  refine Yields.bind (yields_several 3 (yields_classElement hm hs)) fun elements helements => ?_
  refine (yields_chance 30).bind fun b _ => .ite (fun _ => ?_) fun _ => ?_
  · refine Yields.bind (yields_withConstructor hm hs helements) ?_
    rintro es ⟨hes, hrules⟩
    exact .pure fun _ _ => ⟨es, rfl, hsuper, hes, hrules⟩
  · refine .pure fun _ _ => ⟨elements, rfl, hsuper, fun e he => ?_, ?_⟩
    · exact (helements e he).1.weaken fun x hx => hx.1
    · exact classElements_ordinary (fun e he => (helements e he).2) 0 0

section Placed

variable {superClass nameTree : Tree} {elements : List Tree}

/-- The context of the heritage of a class agrees with the scene in the class, and so does the
context of its elements. -/
theorem Agrees.ofClass {x : Context} (hx : Agrees n c x) :
    Agrees n c.ofClass { x.inherited with strict := true } :=
  { hx with strict := fun _ => rfl }

theorem MadeClass.placed_classDeclaration (h : MadeClass n c superClass elements)
    (hname : Placed (fun x => name.isSome = true → x.defaultName = true)
      (.node .bindingIdentifier) nameTree) :
    Placed (OfDeclaration name n c) (.node .classDeclaration)
      (.node .classDeclaration [nameTree, superClass, .list elements]) := by
  refine placed_node (.cons ?_ (.cons ?_ (.cons ?_ .nil))) fun _ _ => h.rules
  · exact hname.field fun x hx => ⟨_, rfl, hx.2⟩
  · exact (Placed.maybe isUnion_expression h.heritage).field fun x hx =>
      ⟨_, rfl, hx.1.ofClass⟩
  · exact (Placed.list (isUnion_node _) h.members).field fun x hx =>
      ⟨_, rfl, { hx.1.ofClass with }, id⟩

theorem MadeClass.placed_classExpression (h : MadeClass n c superClass elements)
    (hname : Placed (Agrees n c.ofClass) (.maybe (.node .bindingIdentifier)) nameTree) :
    Placed (Agrees n c) (.node .classExpression)
      (.node .classExpression [nameTree, superClass, .list elements]) := by
  refine placed_node (.cons ?_ (.cons ?_ (.cons ?_ .nil))) fun _ _ => h.rules
  · exact hname.field fun x hx => ⟨_, rfl, hx.ofClass⟩
  · exact (Placed.maybe isUnion_expression h.heritage).field fun x hx =>
      ⟨_, rfl, hx.ofClass⟩
  · exact (Placed.list (isUnion_node _) h.members).field fun x hx =>
      ⟨_, rfl, { hx.ofClass with }, id⟩

end Placed

/-- A class declaration declares its name lexically. -/
theorem declares_classDeclaration {S : Set String} {s : String} (h : s ∈ S)
    (superClass elements : Tree) :
    Declares S (.node .classDeclaration [bindingOf s, superClass, elements]) := by
  have hmem : ∀ t ∈ [s], t ∈ S := by simpa using h
  intro f
  refine ⟨[s], [], rfl, ?_, .lexical (List.nodup_singleton s) hmem⟩
  cases f <;> rfl

include hm hs in
theorem makes_classDeclaration (hname : NamesDefault name) :
    Makes n (classDeclaration rs m levels c name) fun k t =>
      Placed (OfDeclaration name n c) (.node .classDeclaration) t ∧
        Declares (ownNames name n k) t := by
  refine makes_named hname fun s k hk hown => ?_
  refine Yields.bind ((yields_classParts hm hs).later hk) ?_
  rintro ⟨superClass, _⟩ ⟨elements, rfl, hclass⟩
  have hnode := hclass.placed_classDeclaration (placed_ownName hown)
  refine Makes.mono (yields_self hnode) ?_
  rintro k' t hk' rfl
  exact ⟨hnode, declares_classDeclaration (ownNames_mono le_rfl hk' hown) _ _⟩

include hm hs in
theorem yields_classExpression :
    Yields n (classExpression rs m levels c) (Placed (Agrees n c) expression) := by
  refine Yields.bind (yields_optionalName (C := Agrees n c.ofClass)) fun name hname => ?_
  refine Yields.bind (yields_classParts hm hs) ?_
  rintro ⟨superClass, _⟩ ⟨elements, rfl, hclass⟩
  exact yields_member isUnion_expression rfl (hclass.placed_classExpression hname)

/-! ## Objects -/

theorem isUnion_objectProperty : IsUnion Language.objectProperty := rfl

include hm hs in
theorem yields_objectProperty :
    Yields n (objectProperty rs m levels c) (Placed (Agrees n c) Language.objectProperty) := by
  refine yields_draw.bind fun r _ => .ite (fun _ => ?_) fun _ => .ite (fun _ => ?_) fun _ => ?_
  · refine Yields.bind (yields_propertyName hm (by decide)) fun name ⟨hname, _⟩ => ?_
    refine Yields.bind (yields_part hm) fun e he => ?_
    exact yields_plain isUnion_objectProperty rfl (fun _ _ => rfl) (fun _ _ => rfl)
      (.cons hname (.cons he .nil))
  · refine yields_reference.bind fun t ⟨s, ht, hs⟩ => ?_
    subst ht
    refine Yields.bind (yields_node (placed_plain (n := n) (c := c) (fun _ _ => rfl)
      (fun _ _ => congrArg some hs) (.cons (.str s) .nil))) fun name hname => ?_
    exact yields_plain isUnion_objectProperty rfl (fun _ _ => rfl) (fun _ _ => rfl)
      (.cons hname .nil)
  · refine (yields_method hm hs).mono fun t ht => ?_
    refine ht.1.widen isUnion_methodDefinition isUnion_objectProperty fun k hk => ?_
    simp [Language.objectProperty, Spec.union, Spec.hasMember, Spec.anyHasMember, hk]

include hm hs in
theorem yields_object : Yields n (object rs m levels c) (Placed (Agrees n c) expression) := by
  refine Yields.bind (yields_several 3 (yields_objectProperty hm hs)) fun ps hps => ?_
  exact yields_plain isUnion_expression rfl (fun _ _ => rfl) (fun _ _ => rfl)
    (.cons (.list isUnion_objectProperty hps) .nil)

/-! ## All expressions with parts -/

include hm hs in
/-- Every kind of expression that the scene allows is placed in it. -/
theorem yields_compound : Yields n (compound rs m levels c) (Placed (Agrees n c) expression) := by
  refine makes_chooseGen (yields_binary hm) ?_
  refine List.forall_mem_append.2 ⟨List.forall_mem_append.2 ⟨List.forall_mem_append.2
    ⟨List.forall_mem_append.2 ⟨?_, ?_⟩, ?_⟩, ?_⟩, ?_⟩
  · simp only [List.forall_mem_cons]
    exact ⟨yields_binary hm, yields_callExpression hm,
      (yields_staticMember hm).mono fun t ht => ht.member isUnion_expression rfl,
      yields_computedMember hm, yields_assignment hm, yields_compoundAssignment hm,
      yields_unary hm, yields_update hm, yields_conditional hm, yields_array hm,
      yields_object hm hs, yields_template hm, yields_newExpression hm, yields_arrow hm hs,
      yields_functionExpression hm hs, yields_classExpression hm hs, nofun⟩
  · exact forall_mem_allowed fun hc => by simpa using yields_awaitExpression hm hc
  · exact forall_mem_allowed fun hc => by simpa using yields_yieldExpression hm hc
  · exact forall_mem_allowed fun hc => by simpa using yields_superMember hc
  · exact forall_mem_allowed fun hc => by simpa using yields_superCall hm hc

end Classes

end Whittle.Sample
