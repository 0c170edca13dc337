import Whittle.Proofs.Series
import Whittle.Proofs.Strays

/-!
# Simplifications are a relief

Whatever stands in the fields of a node, each of its simplifications that comes about is lighter
than the node and has no more strays inside: a node that is made is checked, so none of its fields
is a stray itself, and what is left out only counts less.
-/

namespace Whittle

open Grammar Whittle.Language Simplification

/-! ## Steps that come about -/

theorem bind_eq_ok {ε α β : Type} {x : Except ε α} {f : α → Except ε β} {b : β} :
    x >>= f = .ok b ↔ ∃ a, x = .ok a ∧ f a = .ok b := by
  cases x <;> simp [bind, Except.bind]

theorem mem_one {e : Editing Tree} {v : Tree} : v ∈ (one e).items ↔ e = .ok v := by
  cases e <;> simp [one, Series.ofExcept, eq_comm]

theorem mem_simplified {text : Tree} {simplest : String} {e : Editing Tree} {v : Tree} :
    v ∈ (simplified text simplest e).items ↔ text.isText simplest = false ∧ e = .ok v := by
  rw [simplified]
  cases text.isText simplest <;> simp [mem_one]

/-! ## Bounds -/

/-- A value weighs no more and has no more strays inside than is given. -/
structure Tree.Within (v : Tree) (weight strays : Nat) : Prop where
  weight_le : v.weight ≤ weight
  strays_le : v.strays none ≤ strays

theorem Tree.Within.refl (v : Tree) : v.Within v.weight (v.strays none) :=
  ⟨Nat.le_refl _, Nat.le_refl _⟩

/-- What a step leads to is within the whole. -/
theorem Tree.within_of_child {t c : Tree} {s : Step} (h : t.child s = .ok c) :
    c.Within t.weight (t.strays none) := by
  have hc := mem_parts_of_child h
  refine ⟨weight_part_le hc, ?_⟩
  cases t with
  | list items =>
    rw [strays_list]
    exact strays_le_inside hc
  | node k fields => exact (strays_le_inside hc).trans (inside_le_strays k fields)
  | _ => cases hc

/-! ## Parts of functions and classes -/

theorem within_parametersOr {params p : Tree} (h : parametersOr params = .ok p) :
    p.Within (max 3 params.weight) (params.strays none) := by
  rw [parametersOr] at h
  split at h
  · have hs := strays_newNode h
    obtain ⟨rfl, -⟩ := newNode_eq_ok h
    exact ⟨Nat.le_max_left .., by simp [hs, strays_list]⟩
  · cases h
    exact ⟨Nat.le_max_right .., Nat.le_refl _⟩

/-- A function expression is not much more than its parts. -/
theorem within_functionExpression {isAsync isGenerator name params body v : Tree}
    (h : functionExpression isAsync isGenerator name params body = .ok v) :
    (∃ fs, v = .node .functionExpression fs) ∧
      v.Within (3 + isAsync.weight + isGenerator.weight + name.weight + max 3 params.weight
        + body.weight) (inside [isAsync, isGenerator, name, params, body]) := by
  obtain ⟨p, hp, h⟩ := bind_eq_ok.1 h
  have hle := within_parametersOr hp
  have hw := hle.weight_le
  have hs := hle.strays_le
  have hstrays := strays_newNode h
  obtain ⟨rfl, -⟩ := newNode_eq_ok h
  refine ⟨⟨_, rfl⟩, ?_, ?_⟩
  · simp (disch := decide) only [weight_node, Kind.weight, List.map_cons, List.map_nil,
      List.sum_cons, List.sum_nil]
    omega
  · simp only [hstrays, inside_cons]
    omega

theorem within_expressionName {name n : Tree} (h : expressionName name = .ok n) :
    n.Within name.weight (name.strays none) := by
  rw [expressionName] at h
  split at h
  · cases h
    split
    · exact ⟨Nat.zero_le _, Nat.zero_le _⟩
    · exact .refl name
  · cases h

theorem within_arrowBody {body b : Tree} (h : arrowBody body = .ok b) :
    b.Within (body.weight + 9) (body.strays none) := by
  unfold arrowBody at h
  split at h
  · cases h
    exact ⟨Nat.le_add_right .., Nat.le_refl _⟩
  · obtain ⟨r, hr, h⟩ := bind_eq_ok.1 h
    have hrs := strays_newNode hr
    have hs := strays_newNode h
    obtain ⟨rfl, -⟩ := newNode_eq_ok hr
    obtain ⟨rfl, -⟩ := newNode_eq_ok h
    refine ⟨?_, ?_⟩
    · simp (disch := decide) only [weight_node, Kind.weight, List.map_cons, List.map_nil,
        List.sum_cons, List.sum_nil, weight_list, itemsWeight]
      omega
    · simp only [hs, hrs, inside_cons, inside_nil, strays_list]
      omega
  · cases h

theorem within_elementMethod {element m : Tree} (h : elementMethod element = .ok m) :
    m.Within element.weight (element.strays none) := by
  rw [elementMethod] at h
  split at h
  · rename_i hchild
    cases h
    exact Tree.within_of_child hchild
  · cases h

theorem within_elementMethods {elements ms : List Tree} (h : elements.mapM elementMethod = .ok ms) :
    (Tree.list ms).Within (itemsWeight elements) (inside elements) := by
  induction elements generalizing ms with
  | nil =>
    cases h
    exact .refl (.list [])
  | cons e es ih =>
    rw [List.mapM_cons] at h
    obtain ⟨m, hm, h⟩ := bind_eq_ok.1 h
    obtain ⟨rest, hrest, h⟩ := bind_eq_ok.1 h
    cases h
    have he := within_elementMethod hm
    have hes := ih hrest
    have := he.weight_le
    have := he.strays_le
    have := hes.weight_le
    have := hes.strays_le
    simp only [weight_list, strays_list] at *
    refine ⟨?_, ?_⟩
    · simp only [weight_list, itemsWeight]
      omega
    · simp only [strays_list, inside_cons]
      omega

/-- The function that a property is, is not much more than the property. -/
theorem within_propertyFunction {p v : Tree} (h : propertyFunction p = .ok (some v)) :
    (∃ fs, v = .node .functionExpression fs) ∧ v.Within (p.weight + 8) (p.strays none) := by
  unfold propertyFunction at h
  split at h
  · rename_i isAsync isGenerator name params body
    obtain ⟨f, hf, h⟩ := bind_eq_ok.1 h
    cases h
    obtain ⟨hkind, hw, hs⟩ := within_functionExpression hf
    have hfields := inside_le_strays .method [isAsync, isGenerator, name, params, body]
    refine ⟨hkind, ?_, ?_⟩
    · simp (disch := decide) only [weight_node, Kind.weight,
        List.map_cons, List.map_nil, List.sum_cons, List.sum_nil, weight_absent] at hw ⊢
      omega
    · simp only [inside_cons, inside_nil, strays_absent] at hs hfields
      omega
  · rename_i name body
    obtain ⟨f, hf, h⟩ := bind_eq_ok.1 h
    cases h
    obtain ⟨hkind, hw, hs⟩ := within_functionExpression hf
    have hfields := inside_le_strays .getter [name, body]
    refine ⟨hkind, ?_, ?_⟩
    · simp (disch := decide) only [weight_node, Kind.weight,
        List.map_cons, List.map_nil, List.sum_cons, List.sum_nil, weight_absent,
        weight_false] at hw ⊢
      omega
    · simp only [inside_cons, inside_nil, strays_absent, strays_bool] at hs hfields
      omega
  · rename_i name param body
    obtain ⟨params, hparams, h⟩ := bind_eq_ok.1 h
    obtain ⟨f, hf, h⟩ := bind_eq_ok.1 h
    cases h
    have hps := strays_newNode hparams
    obtain ⟨rfl, -⟩ := newNode_eq_ok hparams
    obtain ⟨hkind, hw, hs⟩ := within_functionExpression hf
    have hfields := inside_le_strays .setter [name, param, body]
    refine ⟨hkind, ?_, ?_⟩
    · simp (disch := decide) only [weight_node, Kind.weight,
        List.map_cons, List.map_nil, List.sum_cons, List.sum_nil, weight_absent, weight_false,
        weight_list, itemsWeight] at hw ⊢
      omega
    · simp only [inside_cons, inside_nil, strays_absent, strays_bool, strays_list, hps]
        at hs hfields
      omega
  · cases h
  · cases h

/-! ## Simplifications -/

/-- What simplifications put in the place of what. -/
def replacements : List (Kind × Kind) := [
  (.directive, .directive), (.templateElement, .templateElement),
  (.literalStringExpression, .literalStringExpression),
  (.staticPropertyName, .staticPropertyName),
  (.literalRegExpExpression, .literalRegExpExpression),
  (.templateExpression, .templateExpression),
  (.staticMemberExpression, .computedMemberExpression),
  (.staticMemberAssignmentTarget, .computedMemberAssignmentTarget),
  (.staticMemberExpression, .staticMemberExpression),
  (.staticMemberAssignmentTarget, .staticMemberAssignmentTarget),
  (.switchStatement, .switchStatementWithDefault),
  (.functionExpression, .arrowExpression), (.expressionStatement, .functionDeclaration),
  (.expressionStatement, .classDeclaration), (.objectExpression, .classExpression),
  (.functionExpression, .objectExpression)]

/-- A node is lighter than the node of kind `k` with the given fields, has no more strays inside,
and is of a kind that simplifications put in its place. -/
structure Relieves (k : Kind) (fields : List Tree) (l : Kind) (vs : List Tree) : Prop where
  mem : (l, k) ∈ replacements
  lighter : (Tree.node l vs).weight < (Tree.node k fields).weight
  strays_le : (Tree.node l vs).strays none ≤ (Tree.node k fields).strays none

/-- What has been made of parts that are lighter, and have no more strays, is a relief. -/
theorem relieves_newNode {k l : Kind} {fields vs : List Tree} {v : Tree}
    (h : newNode l vs = .ok v) (hmem : (l, k) ∈ replacements)
    (hlt : (Tree.node l vs).weight < (Tree.node k fields).weight)
    (hle : inside vs ≤ inside fields) : ∃ vs, v = .node l vs ∧ Relieves k fields l vs := by
  have hs := strays_newNode h
  obtain ⟨rfl, -⟩ := newNode_eq_ok h
  exact ⟨vs, rfl, hmem, hlt, (hs.trans_le hle).trans (inside_le_strays k fields)⟩

theorem weight_text {k : Kind} {name : String} (he : k ≠ .expressionStatement)
    (hnames : k.fieldNames = [name]) (t : Tree) :
    (Tree.node k [t]).weight = k.weight + fieldWeight k name t := by
  rw [Tree.weight, nodeWeight_of_ne he, hnames, fieldsWeight_cons, fieldsWeight_nil, Nat.add_zero]

/-- The simplest text is lighter than any other value in its place. -/
theorem fieldWeight_simplest_lt {k : Kind} {name simplest : String}
    (hname : simplestText? k name = some simplest) {t : Tree} (ht : t.isText simplest = false) :
    fieldWeight k name (.str simplest) < fieldWeight k name t := by
  rw [fieldWeight_text hname, if_pos rfl, fieldWeight, hname]
  simp only [ht, Bool.false_eq_true, if_false]
  omega

theorem relieves_text {k : Kind} {name : String} (hmem : (k, k) ∈ replacements)
    (he : k ≠ .expressionStatement) (hnames : k.fieldNames = [name])
    (hname : simplestText? k name = some "") {raw v : Tree}
    (h : v ∈ (simplified raw "" (newNode k [.str ""])).items) :
    ∃ l vs, v = .node l vs ∧ Relieves k [raw] l vs := by
  obtain ⟨htext, hv⟩ := mem_simplified.1 h
  refine ⟨k, relieves_newNode hv hmem ?_ (by simp)⟩
  have hlt := fieldWeight_simplest_lt hname htext
  rw [weight_text he hnames, weight_text he hnames]
  omega

theorem relieves_regExp {pattern v : Tree} {flags : List Tree}
    (h : v ∈ (simplified pattern simplestPattern
      (.ok (.node .literalRegExpExpression (.str simplestPattern :: flags)))).items) :
    ∃ l vs, v = .node l vs ∧ Relieves .literalRegExpExpression (pattern :: flags) l vs := by
  obtain ⟨htext, hv⟩ := mem_simplified.1 h
  cases hv
  have hlt := fieldWeight_simplest_lt
    (show simplestText? .literalRegExpExpression "pattern" = some simplestPattern from rfl) htext
  refine ⟨_, _, rfl, by decide, ?_, ?_⟩
  · have hnames : Kind.literalRegExpExpression.fieldNames
      = "pattern" :: Kind.literalRegExpExpression.fieldNames.tail := rfl
    rw [Tree.weight, Tree.weight, hnames, fieldsWeight_cons, fieldsWeight_cons,
      nodeWeight_of_ne (by decide), nodeWeight_of_ne (by decide)]
    omega
  · have hslots : ∃ s ss, Kind.literalRegExpExpression.slots = s :: ss := ⟨_, _, rfl⟩
    obtain ⟨s, ss, hslots⟩ := hslots
    simp only [Tree.strays, hslots, fieldsStrays]
    omega

theorem weight_member {k : Kind} (he : k ≠ .expressionStatement)
    (hnames : k.fieldNames = ["object", "property"]) (hobject : simplestText? k "object" = none)
    (object property : Tree) : (Tree.node k [object, property]).weight
      = k.weight + object.weight + fieldWeight k "property" property := by
  rw [Tree.weight, nodeWeight_of_ne he, hnames, fieldsWeight_cons, fieldsWeight_cons,
    fieldsWeight_nil, fieldWeight_plain hobject]
  omega

/-- A member of the same object with the plain property name is a relief if it is lighter. -/
theorem relieves_member {k l : Kind} (hmem : (l, k) ∈ replacements) {object property v : Tree}
    (hlt : (Tree.node l [object, .str placeholderProperty]).weight
      < (Tree.node k [object, property]).weight)
    (h : newNode l [object, .str placeholderProperty] = .ok v) :
    ∃ l vs, v = .node l vs ∧ Relieves k [object, property] l vs :=
  ⟨l, relieves_newNode h hmem hlt (by simp)⟩

theorem relieves_computed {k l : Kind} (hmem : (l, k) ∈ replacements) (hk : k.hasText = false)
    (hne : k ≠ .expressionStatement) (hkw : k.weight = 5) (he : l ≠ .expressionStatement)
    (hlw : l.weight = 3) (hnames : l.fieldNames = ["object", "property"])
    (hobject : simplestText? l "object" = none)
    (hproperty : simplestText? l "property" = some placeholderProperty) {object property v : Tree}
    (h : newNode l [object, .str placeholderProperty] = .ok v) :
    ∃ l vs, v = .node l vs ∧ Relieves k [object, property] l vs := by
  refine relieves_member hmem ?_ h
  simp only [weight_member he hnames hobject, fieldWeight_text hproperty, if_true,
    weight_node hk hne, hkw, hlw, List.map_cons, List.map_nil, List.sum_cons, List.sum_nil]
  omega

theorem relieves_static {k : Kind} (hmem : (k, k) ∈ replacements) (he : k ≠ .expressionStatement)
    (hnames : k.fieldNames = ["object", "property"]) (hobject : simplestText? k "object" = none)
    (hproperty : simplestText? k "property" = some placeholderProperty) {object property v : Tree}
    (h : v ∈ (simplified property placeholderProperty
      (newNode k [object, .str placeholderProperty])).items) :
    ∃ l vs, v = .node l vs ∧ Relieves k [object, property] l vs := by
  obtain ⟨htext, hv⟩ := mem_simplified.1 h
  refine relieves_member hmem ?_ hv
  have hlt := fieldWeight_simplest_lt hproperty htext
  simp only [weight_member he hnames hobject]
  omega

/-! ### Templates and switches -/

/-- A list without a pair has only items that it had, and is shorter. -/
theorem sublist_of_mem_withoutPairs {items before es : List Tree}
    (h : es ∈ withoutPairs before items) :
    es.Sublist (before.reverse ++ items) ∧ es.length < (before.reverse ++ items).length := by
  induction before, items using withoutPairs.induct with
  | case1 before a b rest ih =>
    simp only [withoutPairs, List.mem_cons] at h
    rcases h with rfl | h
    · refine ⟨List.Sublist.append_left ?_ _, by simp⟩
      exact .cons _ (.cons _ (.refl _))
    · simpa using ih h
  | case2 before items hitems =>
    rw [withoutPairs] at h
    · cases h
    · exact hitems

theorem itemsWeight_eq (ts : List Tree) :
    itemsWeight ts = 3 * ts.length + (ts.map Tree.weight).sum := by
  induction ts with
  | nil => rfl
  | cons t ts ih =>
    simp only [itemsWeight, ih, List.length_cons, List.map_cons, List.sum_cons]
    omega

/-- A shorter list of some of the items is lighter and has no more strays inside. -/
theorem sublist_bounds {ts us : List Tree} (h : ts.Sublist us) (hlt : ts.length < us.length) :
    itemsWeight ts < itemsWeight us ∧ inside ts ≤ inside us := by
  have hw := (h.map Tree.weight).sum_le_sum (by simp)
  have hs := (h.map (Tree.strays none)).sum_le_sum (by simp)
  rw [itemsWeight_eq, itemsWeight_eq]
  exact ⟨by omega, hs⟩

theorem isList_of_admits {t : TypeSpec} {v : Tree} (h : (Spec.list t).admits v = true) :
    ∃ items, v = .list items := by
  cases v with
  | list items => exact ⟨items, rfl⟩
  | _ => simp [Spec.admits, Spec.admits?, Spec.list] at h

theorem relieves_template {tag elements v : Tree}
    (h : v ∈ ((elementsWithoutPairs elements).mapExcept fun es =>
      newNode .templateExpression [tag, es]).items) :
    ∃ l vs, v = .node l vs ∧ Relieves .templateExpression [tag, elements] l vs := by
  obtain ⟨es, hes, hv⟩ := Series.exists_of_mem_mapExcept h
  unfold elementsWithoutPairs at hes
  split at hes
  · rename_i items
    obtain ⟨es, hmem, rfl⟩ := List.mem_map.1 hes
    obtain ⟨hsub, hlen⟩ := sublist_of_mem_withoutPairs hmem
    obtain ⟨hlt, hle⟩ := sublist_bounds hsub hlen
    simp only [List.reverse_nil, List.nil_append] at hlt hle
    refine ⟨_, relieves_newNode hv (by decide) ?_ ?_⟩
    · simp (disch := decide) only [weight_node, List.map_cons, List.map_nil, List.sum_cons,
        List.sum_nil, weight_list]
      omega
    · simp only [inside_cons, inside_nil, strays_list]
      omega
  · -- a text is no list of elements
    obtain ⟨-, _ | ⟨-, _ | ⟨hadmits, -⟩⟩⟩ := newNode_eq_ok hv
    obtain ⟨items, rfl⟩ := isList_of_admits hadmits
    unfold one at hes
    split at hes <;> simp_all [Series.ofExcept]
  · cases hes

/-- Only lists have a list as their sum. -/
theorem sum?_eq_list {a b : Tree} {items : List Tree} (h : a.sum? b = some (.list items)) :
    ∃ as bs, a = .list as ∧ b = .list bs ∧ items = as ++ bs := by
  unfold Tree.sum? at h
  split at h
  · cases h
  · cases h
    exact ⟨_, _, rfl, rfl, rfl⟩
  · obtain ⟨x, -, h⟩ := Option.bind_eq_some_iff.1 h
    cases h
  · obtain ⟨x, -, h⟩ := Option.bind_eq_some_iff.1 h
    cases h
  · obtain ⟨x, -, h⟩ := Option.bind_eq_some_iff.1 h
    obtain ⟨y, -, h⟩ := Option.bind_eq_some_iff.1 h
    cases h

theorem relieves_switch {discriminant before default after cases v : Tree}
    (hsum : before.sum? after = some cases)
    (h : newNode .switchStatement [discriminant, cases] = .ok v) :
    ∃ l vs, v = .node l vs ∧
      Relieves .switchStatementWithDefault [discriminant, before, default, after] l vs := by
  obtain ⟨-, _ | ⟨-, _ | ⟨hadmits, -⟩⟩⟩ := newNode_eq_ok h
  obtain ⟨items, rfl⟩ := isList_of_admits hadmits
  obtain ⟨as, bs, rfl, rfl, rfl⟩ := sum?_eq_list hsum
  refine ⟨_, relieves_newNode h (by decide) ?_ ?_⟩
  · simp (disch := decide) only [weight_node, Kind.weight, List.map_cons, List.map_nil,
      List.sum_cons, List.sum_nil, weight_list, itemsWeight_append]
    omega
  · simp only [inside_cons, inside_nil, strays_list, inside_append]
    omega

/-! ### Functions, classes and objects -/

theorem relieves_arrow {isAsync params body b v : Tree} (hb : arrowBody body = .ok b)
    (h : functionExpression isAsync (.bool false) .absent params b = .ok v) :
    ∃ l vs, v = .node l vs ∧ Relieves .arrowExpression [isAsync, params, body] l vs := by
  obtain ⟨⟨fs, rfl⟩, hv⟩ := within_functionExpression h
  have hbody := within_arrowBody hb
  refine ⟨_, fs, rfl, by decide, ?_, ?_⟩
  · have := hv.weight_le
    have := hbody.weight_le
    simp (disch := decide) only [weight_node, Kind.weight, List.map_cons, List.map_nil,
      List.sum_cons, List.sum_nil, weight_absent, weight_false] at *
    omega
  · have := hv.strays_le
    have := hbody.strays_le
    have := inside_le_strays .arrowExpression [isAsync, params, body]
    simp only [inside_cons, inside_nil, strays_absent, strays_bool] at *
    omega

/-- A declaration becomes the statement of an expression that is less by two and more. -/
theorem relieves_declaration {k l : Kind} {fields fs : List Tree} {v : Tree}
    (hmem : (.expressionStatement, k) ∈ replacements) (hl : l.isExpression = true)
    (hlt : (Tree.node l fs).weight + 1 < (Tree.node k fields).weight)
    (hle : (Tree.node l fs).strays none ≤ inside fields)
    (h : newNode .expressionStatement [.node l fs] = .ok v) :
    ∃ l vs, v = .node l vs ∧ Relieves k fields l vs := by
  refine ⟨_, relieves_newNode h hmem ?_ (by simpa using hle)⟩
  rw [weight_statementOf hl]
  omega

theorem relieves_functionDeclaration {isAsync isGenerator name params body n f v : Tree}
    (hn : expressionName name = .ok n)
    (hf : functionExpression isAsync isGenerator n params body = .ok f)
    (h : newNode .expressionStatement [f] = .ok v) :
    ∃ l vs, v = .node l vs ∧
      Relieves .functionDeclaration [isAsync, isGenerator, name, params, body] l vs := by
  obtain ⟨⟨fs, rfl⟩, hv⟩ := within_functionExpression hf
  have hname := within_expressionName hn
  refine relieves_declaration (by decide) rfl ?_ ?_ h
  · have := hv.weight_le
    have := hname.weight_le
    simp (disch := decide) only [weight_node, Kind.weight, List.map_cons, List.map_nil,
      List.sum_cons, List.sum_nil] at *
    omega
  · have := hv.strays_le
    have := hname.strays_le
    simp only [inside_cons, inside_nil] at *
    omega

theorem relieves_classDeclaration {name superClass elements n c v : Tree}
    (hn : expressionName name = .ok n)
    (hc : newNode .classExpression [n, superClass, elements] = .ok c)
    (h : newNode .expressionStatement [c] = .ok v) :
    ∃ l vs, v = .node l vs ∧ Relieves .classDeclaration [name, superClass, elements] l vs := by
  have hname := within_expressionName hn
  have hs := strays_newNode hc
  obtain ⟨rfl, -⟩ := newNode_eq_ok hc
  refine relieves_declaration (by decide) rfl ?_ ?_ h
  · have := hname.weight_le
    simp (disch := decide) only [weight_node, Kind.weight, List.map_cons, List.map_nil,
      List.sum_cons, List.sum_nil]
    omega
  · have := hname.strays_le
    simp only [hs, inside_cons, inside_nil]
    omega

theorem relieves_classExpression {name superClass elements v : Tree} {items ms : List Tree}
    (hitems : itemsOf elements = .ok items) (hms : items.mapM elementMethod = .ok ms)
    (h : newNode .objectExpression [.list ms] = .ok v) :
    ∃ l vs, v = .node l vs ∧ Relieves .classExpression [name, superClass, elements] l vs := by
  have hle := within_elementMethods hms
  have helements : itemsWeight items ≤ elements.weight ∧ inside items ≤ elements.strays none := by
    unfold itemsOf at hitems
    split at hitems
    · cases hitems
      exact ⟨Nat.le_refl _, (strays_list _).ge⟩
    · cases hitems
      exact ⟨Nat.zero_le _, Nat.zero_le _⟩
    · cases hitems
  refine ⟨_, relieves_newNode h (by decide) ?_ ?_⟩
  · have := hle.weight_le
    simp (disch := decide) only [weight_node, Kind.weight, List.map_cons, List.map_nil,
      List.sum_cons, List.sum_nil]
    omega
  · have := hle.strays_le
    simp only [inside_cons, inside_nil]
    omega

theorem relieves_object {properties v : Tree} {items : List Tree}
    (hitems : itemsOf properties = .ok items)
    (h : v ∈ (Series.mapList propertyFunction items).items.filterMap id) :
    ∃ l vs, v = .node l vs ∧ Relieves .objectExpression [properties] l vs := by
  obtain ⟨r, hr, hv⟩ := List.mem_filterMap.1 h
  obtain rfl : r = some v := hv
  obtain ⟨p, hp, hfunction⟩ := Series.exists_of_mem_mapList hr
  obtain ⟨⟨fs, rfl⟩, hle⟩ := within_propertyFunction hfunction
  obtain rfl : properties = .list items := by
    unfold itemsOf at hitems
    split at hitems
    · cases hitems
      rfl
    · cases hitems
      cases hp
    · cases hitems
  have hpw := weight_le_itemsWeight hp
  have hps := strays_le_inside hp
  refine ⟨_, fs, rfl, by decide, ?_, ?_⟩
  · have := hle.weight_le
    simp (disch := decide) only [weight_node, Kind.weight, List.map_cons, List.map_nil,
      List.sum_cons, List.sum_nil, weight_list] at *
    omega
  · have := hle.strays_le
    have := inside_le_strays .objectExpression [.list items]
    simp only [inside_cons, inside_nil, strays_list] at *
    omega

/-- Every simplification of a node that comes about is a relief. -/
theorem simplifications_relieve {k : Kind} {fields : List Tree} {v : Tree}
    (h : v ∈ (simplifications k fields).items) :
    ∃ l vs, v = .node l vs ∧ Relieves k fields l vs := by
  unfold simplifications at h
  split at h
  case h_1 raw => exact relieves_text (by decide) (by decide) rfl rfl h
  case h_2 raw => exact relieves_text (by decide) (by decide) rfl rfl h
  case h_3 value => exact relieves_text (by decide) (by decide) rfl rfl h
  case h_4 value => exact relieves_text (by decide) (by decide) rfl rfl h
  case h_5 pattern flags => exact relieves_regExp h
  case h_6 tag elements => exact relieves_template h
  case h_7 object property =>
    exact relieves_computed (by decide) rfl (by decide) rfl (by decide) rfl rfl rfl rfl
      (mem_one.1 h)
  case h_8 object property =>
    exact relieves_computed (by decide) rfl (by decide) rfl (by decide) rfl rfl rfl rfl
      (mem_one.1 h)
  case h_9 object property => exact relieves_static (by decide) (by decide) rfl rfl rfl h
  case h_10 object property => exact relieves_static (by decide) (by decide) rfl rfl rfl h
  case h_11 discriminant before default after =>
    have h := mem_one.1 h
    split at h
    · rename_i cases hsum
      exact relieves_switch hsum h
    · cases h
  case h_12 isAsync params body =>
    obtain ⟨b, hb, h⟩ := bind_eq_ok.1 (mem_one.1 h)
    exact relieves_arrow hb h
  case h_13 isAsync isGenerator name params body =>
    obtain ⟨n, hn, h⟩ := bind_eq_ok.1 (mem_one.1 h)
    obtain ⟨f, hf, h⟩ := bind_eq_ok.1 h
    exact relieves_functionDeclaration hn hf h
  case h_14 name superClass elements =>
    obtain ⟨n, hn, h⟩ := bind_eq_ok.1 (mem_one.1 h)
    obtain ⟨c, hc, h⟩ := bind_eq_ok.1 h
    exact relieves_classDeclaration hn hc h
  case h_15 name superClass elements =>
    obtain ⟨items, hitems, h⟩ := bind_eq_ok.1 (mem_one.1 h)
    obtain ⟨ms, hms, h⟩ := bind_eq_ok.1 h
    exact relieves_classExpression hitems hms h
  case h_16 properties =>
    split at h
    · rename_i items hitems
      exact relieves_object hitems h
    · cases h
  case h_17 => cases h

end Whittle
