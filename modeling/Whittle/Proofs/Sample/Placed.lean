import Whittle.Proofs.Sample.Spec
import Whittle.Proofs.Validity.Nodes

/-!
# Trees in their places

A tree is *placed* if it fits the type of the place and breaks no rule in any of the contexts
that the place may have. The contexts of a scene allow at least what the scene allows, and their
labels are no names that are still to be handed out. Most nodes hand these contexts down to
their fields as they are.
-/

namespace Whittle.Sample

open Grammar Whittle.Language

/-- The value fits the type, and breaks no rule in the contexts of the class `C`. -/
def Placed (C : Context → Prop) (type : TypeSpec) (t : Tree) : Prop :=
  FitsType false type t ∧ ∀ x, C x → Clean x t

/-- The context allows what the scene allows, with less than `n` names for labels. -/
structure Agrees (n : Nat) (c : Scene) (x : Context) : Prop where
  inFunction : c.inFunction = true → x.inFunction = true
  isAsync : c.isAsync = true → x.isAsync = true
  isGenerator : c.isGenerator = true → x.isGenerator = true
  inLoop : c.inLoop = true → x.inIteration = true
  inSwitch : c.inSwitch = true → x.inSwitch = true
  labels : ∀ l ∈ c.labels, x.label? l.1 = some l.2
  bounded : ∀ l ∈ x.labels, ∃ i, i < n ∧ l.1 = numbered "L" i
  superProperty : c.superProperty = true → x.superProperty = true
  superCall : c.superCall = true → x.superCall = true
  strict : x.strict = true → c.strict = true

variable {n m : Nat} {c : Scene} {x : Context} {C C' : Context → Prop} {type type' : TypeSpec}
  {t v : Tree} {k : Kind} {fields : List Tree}

namespace Agrees

theorem later (h : Agrees n c x) (hm : n ≤ m) : Agrees m c x :=
  { h with
    bounded := fun l hl =>
      let ⟨i, hi, heq⟩ := h.bounded l hl
      ⟨i, hi.trans_le hm, heq⟩ }

theorem inherited (h : Agrees n c x) : Agrees n c x.inherited :=
  { h with }

end Agrees

/-! ## Unions -/

/-- The type is the union of its members. -/
def IsUnion (type : TypeSpec) : Prop :=
  positionOf type = some (.union type.members.eraseDups)

theorem isUnion_node (k : Kind) : IsUnion (.node k) := by cases k <;> rfl

theorem isUnion_expression : IsUnion expression := rfl

theorem isUnion_statement : IsUnion statement := rfl

/-- Of a union, the nodes fit whose kinds are members and whose fields fit. -/
theorem fitsType_isUnion (ht : IsUnion type) : FitsType false type v ↔
    ∃ k fields, v = .node k fields ∧ type.hasMember k = true ∧
      FieldsFit false k k.slots fields := by
  simp [fitsType_union ht, PositionType.takes, List.mem_eraseDups, Spec.mem_members]

theorem fitsType_maybe_iff (ht : IsUnion type) :
    FitsType false (.maybe type) v ↔ v = .absent ∨ FitsType false type v := by
  have hmaybe : positionOf (.maybe type) = some (.maybe (.union type.members.eraseDups)) :=
    positionOf_maybe ht
  rw [fitsType_maybe hmaybe, fitsType_union ht]

namespace Placed

theorem weaken (h : Placed C type t) (hC : ∀ x, C' x → C x) : Placed C' type t :=
  ⟨h.1, fun x hx => h.2 x (hC x hx)⟩

/-- A tree may stand wherever the names that it was made after are not yet handed out. -/
theorem sooner (h : Placed (Agrees m c) type t) (hn : n ≤ m) : Placed (Agrees n c) type t :=
  h.weaken fun _ hx => hx.later hn

theorem widen (h : Placed C type t) (ht : IsUnion type) (ht' : IsUnion type')
    (hsub : ∀ k, type.hasMember k = true → type'.hasMember k = true) : Placed C type' t := by
  obtain ⟨k, fields, rfl, hk, hfields⟩ := (fitsType_isUnion ht).1 h.1
  exact ⟨(fitsType_isUnion ht').2 ⟨k, fields, rfl, hsub k hk, hfields⟩, h.2⟩

/-- A node of a kind stands where one of its members is taken. -/
theorem member (h : Placed C (.node k) t) (ht : IsUnion type) (hk : type.hasMember k = true) :
    Placed C type t := by
  refine h.widen (isUnion_node k) ht fun l hl => ?_
  obtain rfl : l = k := by simpa [Spec.node, Spec.atom, Spec.hasMember] using hl
  exact hk

/-- What a union does not take is no node of that kind. -/
theorem isKind_eq_false (h : Placed C expression t) (hk : expression.hasMember k = false) :
    t.isKind k = false := by
  obtain ⟨l, fields, rfl, hl, -⟩ := (fitsType_isUnion isUnion_expression).1 h.1
  have hne : l ≠ k := by
    rintro rfl
    rw [hk] at hl
    cases hl
  simpa [Tree.isKind, Tree.kind?] using hne

theorem leaf (ht : isLeafType type = true) (hpos : positionOf type = none)
    (h : FitsType false type v) : Placed C type v :=
  ⟨h, fun _ _ => clean_leaf (isLeaf_of_admits ht ((fitsType_leaf hpos).1 h))⟩

theorem str (s : String) : Placed C .string (.str s) :=
  leaf rfl rfl (fitsType_string.2 ⟨s, rfl⟩)

theorem bool (b : Bool) : Placed C .boolean (.bool b) :=
  leaf rfl rfl (fitsType_boolean.2 ⟨b, rfl⟩)

theorem word {words : List String} {s : String} (h : s ∈ words) :
    Placed C (.enum words) (.str s) := by
  refine leaf rfl rfl ((fitsType_leaf rfl).2 ?_)
  simpa [Spec.admits, Spec.admits?, Spec.enum, Spec.atom] using h

theorem maybe (ht : IsUnion type) (h : v = .absent ∨ Placed C type v) :
    Placed C (.maybe type) v := by
  obtain rfl | h := h
  · exact ⟨(fitsType_maybe_iff ht).2 (.inl rfl), fun _ _ => clean_leaf rfl⟩
  · exact ⟨(fitsType_maybe_iff ht).2 (.inr h.1), h.2⟩

theorem list {p : Position} (ht : positionOf type = some p) {items : List Tree}
    (h : ∀ v ∈ items, Placed C type v) : Placed C (.list type) (.list items) := by
  refine ⟨(fitsType_list ht).2 ⟨items, rfl, fun v hv => (h v hv).1⟩, fun x hx => ?_⟩
  exact clean_list.2 fun k fields hmem => (h _ hmem).2 x hx

end Placed

/-! ## Nodes -/

/-- A value of a field fits the type of the field and breaks no rule in the context that the
field has. -/
def FieldPlaced (C : Context → Prop) (k : Kind) (fields : List Tree) (f : String × TypeSpec)
    (v : Tree) : Prop :=
  FitsType false f.2 v ∧ ∀ x, C x → v.isLeaf = false →
    ∃ inner, x.ofField k fields f.1 = some inner ∧ Clean inner v

/-- What is placed in contexts that the field has is placed in the field. -/
theorem Placed.field {f : String × TypeSpec} (h : Placed C' f.2 v)
    (hfield : ∀ x, C x → ∃ inner, x.ofField k fields f.1 = some inner ∧ C' inner) :
    FieldPlaced C k fields f v := by
  refine ⟨h.1, fun x hx _ => ?_⟩
  obtain ⟨inner, hinner, hC⟩ := hfield x hx
  exact ⟨inner, hinner, h.2 inner hC⟩

theorem FieldPlaced.leaf {f : String × TypeSpec} (h : FitsType false f.2 v)
    (hv : v.isLeaf = true) : FieldPlaced C k fields f v :=
  ⟨h, fun x _ hv' => by rw [hv] at hv'; cases hv'⟩

/-- A node is placed if its fields are and it breaks no rule itself. -/
theorem placed_node
    (hparts : List.Forall₂ (FieldPlaced C k fields) k.fields fields)
    (herrors : ∀ x, C x → nodeErrors x k fields = some []) :
    Placed C (.node k) (.node k fields) := by
  refine ⟨fitsType_node.2 ⟨fields, rfl, (fieldsFit_iff_fitsType (.inl rfl)).2 (hparts.imp ?_)⟩, ?_⟩
  · exact fun f v h => h.1
  · intro x hx
    refine clean_node.2 ⟨herrors x hx, fun name v hmem hv => ?_⟩
    rw [Kind.fieldNames_eq, List.zip_map_left] at hmem
    obtain ⟨⟨f, v⟩, hzip, heq⟩ := List.mem_map.1 hmem
    cases heq
    exact ((List.forall₂_iff_zip.1 hparts).2 hzip).2 x hx hv

/-- A node whose fields have its own context is placed where its fields are. -/
theorem placed_plain
    (hcontext : ∀ (x : Context) name, x.ofField k fields name = some x.inherited)
    (herrors : ∀ x, Agrees n c x → nodeErrors x k fields = some [])
    (hparts : List.Forall₂ (fun f v => Placed (Agrees n c) f.2 v) k.fields fields) :
    Placed (Agrees n c) (.node k) (.node k fields) := by
  refine placed_node (hparts.imp fun f v h => ?_) herrors
  exact h.field fun x hx => ⟨_, hcontext x _, hx.inherited⟩

section Generators

variable {σ : Type}

/-- A node that is placed is made. -/
theorem yields_self (h : Placed C (.node k) (.node k fields)) :
    Yields n (node (σ := σ) k fields) (· = .node k fields) := by
  obtain ⟨_, heq, hfields⟩ := fitsType_node.1 h.1
  cases heq
  exact makes_node (make_of_fieldsFit (.inl rfl) hfields) fun _ _ => rfl

theorem yields_node (h : Placed C (.node k) (.node k fields)) :
    Yields n (node (σ := σ) k fields) (Placed C (.node k)) := by
  refine (yields_self h).mono ?_
  rintro t rfl
  exact h

/-- A node is made for a place that takes nodes of its kind. -/
theorem yields_member (ht : IsUnion type) (hmember : type.hasMember k = true)
    (h : Placed C (.node k) (.node k fields)) :
    Yields n (node (σ := σ) k fields) (Placed C type) :=
  (yields_node h).mono fun _ hnode => hnode.member ht hmember

/-- A node is made whose fields have its own context. -/
theorem yields_plain (ht : IsUnion type) (hmember : type.hasMember k = true)
    (hcontext : ∀ (x : Context) name, x.ofField k fields name = some x.inherited)
    (herrors : ∀ x, Agrees n c x → nodeErrors x k fields = some [])
    (hparts : List.Forall₂ (fun f v => Placed (Agrees n c) f.2 v) k.fields fields) :
    Yields n (node (σ := σ) k fields) (Placed (Agrees n c) type) :=
  yields_member ht hmember (placed_plain hcontext herrors hparts)

theorem Yields.maybe {g : Gen σ Tree} (ht : IsUnion type) (h : Yields n g (Placed C type)) :
    Yields n g (Placed C (.maybe type)) :=
  h.mono fun _ hv => .maybe ht (.inr hv)

end Generators

end Whittle.Sample
