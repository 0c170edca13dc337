import Whittle.Proofs.Grammar.Inhabitants
import Whittle.Edit
import Whittle.Validity.Typing

/-!
# Typing of positions

What fits a position: a node of one of the kinds that the position takes, all of whose
fields fit theirs; a list of what fits; or nothing where that is allowed. A tree is
well-typed exactly if it is a node whose fields fit.

Besides there is a looser way of fitting, in which what is exported may also be an
expression statement. Editing leads from well-typed trees to trees that fit loosely, and no
further.
-/

namespace Whittle

open Grammar Whittle.Language

/-- The kinds that export a declaration. -/
def Kind.exports : Kind → Bool
  | .exportDeclaration | .exportDefault => true
  | _ => false

/-- A value without parts. -/
def Tree.isLeaf : Tree → Bool
  | .list _ | .node _ _ => false
  | _ => true

/-- The position that a slot is; with `loose`, exports take expression statements too. -/
def slotPosition (loose : Bool) (k : Kind) (s : Slot) : Option Position :=
  match s.position with
  | some (.union ms) =>
    some (.union (if loose && k.exports then .named .expressionStatement :: ms else ms))
  | p => p

mutual
/-- Whether a value fits a position. -/
def Tree.Fits (loose : Bool) (type : Position) : Tree → Prop
  | .node k fields => type.required.takes k = true ∧ FieldsFit loose k k.slots fields
  | .list items => ∃ t, type = .list t ∧ ItemsFit loose t items
  | .absent => isOptional (some type) = true
  | _ => False

/-- Whether values fit the slots of a node of kind `k`, one by one. -/
def FieldsFit (loose : Bool) (k : Kind) : List Slot → List Tree → Prop
  | [], [] => True
  | s :: ss, v :: vs =>
    (match slotPosition loose k s with
      | some type => v.Fits loose type
      | none => s.type.admits v = true) ∧ FieldsFit loose k ss vs
  | _, _ => False

/-- Whether all values of a list fit a position. -/
def ItemsFit (loose : Bool) (type : Position) : List Tree → Prop
  | [] => True
  | v :: vs => v.Fits loose type ∧ ItemsFit loose type vs
end

/-- Whether a value fits a slot of a node of kind `k`. -/
def FitsSlot (loose : Bool) (k : Kind) (s : Slot) (v : Tree) : Prop :=
  match slotPosition loose k s with
  | some type => v.Fits loose type
  | none => s.type.admits v = true

/-- A node whose fields fit. -/
def Tree.IsFit (loose : Bool) : Tree → Prop
  | .node k fields => FieldsFit loose k k.slots fields
  | _ => False

/-! ## Lists of fields and items -/

variable {loose : Bool}

theorem itemsFit_iff {type : Position} {items : List Tree} :
    ItemsFit loose type items ↔ ∀ v ∈ items, v.Fits loose type := by
  induction items with
  | nil => simp [ItemsFit]
  | cons v vs ih => simp [ItemsFit, ih]

theorem fieldsFit_cons {k : Kind} {s : Slot} {ss : List Slot} {v : Tree} {vs : List Tree} :
    FieldsFit loose k (s :: ss) (v :: vs) ↔ FitsSlot loose k s v ∧ FieldsFit loose k ss vs :=
  Iff.rfl

theorem FieldsFit.length_eq {k : Kind} : ∀ {ss : List Slot} {vs : List Tree},
    FieldsFit loose k ss vs → vs.length = ss.length
  | [], [], _ => rfl
  | _ :: _, _ :: _, h => congrArg (· + 1) (FieldsFit.length_eq h.2)
  | [], _ :: _, h => h.elim
  | _ :: _, [], h => h.elim

/-- A field in the middle fits the slot at its place. -/
theorem FieldsFit.middle {k : Kind} {ss : List Slot} {before after : List Tree} {v : Tree}
    (h : FieldsFit loose k ss (before ++ v :: after)) :
    ∃ s, ss[before.length]? = some s ∧ FitsSlot loose k s v := by
  induction before generalizing ss with
  | nil =>
    cases ss with
    | nil => exact h.elim
    | cons s ss => exact ⟨s, rfl, h.1⟩
  | cons b before ih =>
    cases ss with
    | nil => exact h.elim
    | cons s ss => exact ih h.2

/-- Another value that fits the slot at its place may take the place of a field. -/
theorem FieldsFit.replace {k : Kind} {ss : List Slot} {before after : List Tree} {v w : Tree}
    (h : FieldsFit loose k ss (before ++ v :: after)) {s : Slot}
    (hs : ss[before.length]? = some s) (hw : FitsSlot loose k s w) :
    FieldsFit loose k ss (before ++ w :: after) := by
  induction before generalizing ss with
  | nil =>
    cases ss with
    | nil => exact h.elim
    | cons s' ss => cases hs; exact ⟨hw, h.2⟩
  | cons b before ih =>
    cases ss with
    | nil => exact h.elim
    | cons s' ss => exact ⟨h.1, ih h.2 hs⟩

/-! ## Strict and loose -/

theorem slotPosition_strict (k : Kind) (s : Slot) : slotPosition false k s = s.position := by
  unfold slotPosition
  split <;> simp_all

theorem slotPosition_of_not_exports {k : Kind} (hk : k.exports = false) (s : Slot) :
    slotPosition loose k s = s.position := by
  unfold slotPosition
  split <;> simp_all

theorem slotPosition_eq_none {k : Kind} {s : Slot} :
    slotPosition loose k s = none ↔ s.position = none := by
  unfold slotPosition
  split <;> simp_all

/-- A position type and what it has become where fits are loose. -/
def Loosens (type type' : Position) : Prop :=
  type' = type ∨ ∃ ms, type = .union ms ∧ type' = .union (.named .expressionStatement :: ms)

theorem loosens_slotPosition {k : Kind} {s : Slot} {type : Position}
    (h : s.position = some type) :
    ∃ type', slotPosition loose k s = some type' ∧ Loosens type type' := by
  unfold slotPosition
  split
  · rename_i ms hms
    cases h.symm.trans hms
    refine ⟨_, rfl, ?_⟩
    split
    · exact .inr ⟨ms, rfl, rfl⟩
    · exact .inl rfl
  · exact ⟨type, h, .inl rfl⟩

theorem Loosens.takes {type type' : Position} (h : Loosens type type') {l : Kind}
    (hl : type.required.takes l = true) : type'.required.takes l = true := by
  obtain rfl | ⟨ms, rfl, rfl⟩ := h
  · exact hl
  · simp only [PositionType.required, PositionType.takes, List.contains_cons] at hl ⊢
    rw [hl, Bool.or_true]

mutual
theorem Tree.Fits.loosen {type type' : Position} (ht : Loosens type type') :
    ∀ {v : Tree}, v.Fits false type → v.Fits true type'
  | .node k fields, h => ⟨ht.takes h.1, FieldsFit.loosen h.2⟩
  | .list items, h => by
      obtain ⟨t, rfl, hi⟩ := h
      obtain rfl | ⟨ms, h, -⟩ := ht
      · exact ⟨t, rfl, ItemsFit.loosen hi⟩
      · cases h
  | .absent, h => by
      obtain rfl | ⟨ms, rfl, -⟩ := ht
      · exact h
      · cases h
  | .bool _, h | .int _, h | .float _, h | .str _, h => h.elim

theorem FieldsFit.loosen {k : Kind} : ∀ {ss : List Slot} {vs : List Tree},
    FieldsFit false k ss vs → FieldsFit true k ss vs
  | [], [], _ => trivial
  | s :: ss, v :: vs, h => by
      refine ⟨?_, FieldsFit.loosen h.2⟩
      have h1 := h.1
      rw [slotPosition_strict] at h1
      cases hp : s.position with
      | none =>
        rw [hp] at h1
        rw [slotPosition_eq_none.2 hp]
        exact h1
      | some type =>
        rw [hp] at h1
        obtain ⟨type', hp', ht⟩ := @loosens_slotPosition true k s type hp
        rw [hp']
        exact Tree.Fits.loosen ht h1
  | [], _ :: _, h => h.elim
  | _ :: _, [], h => h.elim

theorem ItemsFit.loosen {type : Position} : ∀ {vs : List Tree},
    ItemsFit false type vs → ItemsFit true type vs
  | [], _ => trivial
  | _ :: _, h => ⟨Tree.Fits.loosen (.inl rfl) h.1, ItemsFit.loosen h.2⟩
end

/-! ## Well-typed trees -/

/-- The types of items: unions, perhaps optional. -/
def isItemType : Position → Bool
  | .union _ => true
  | .maybe (.union _) => true
  | _ => false

/-- The types of fields that hold no nodes. -/
def isLeafType : TypeSpec → Bool
  | .of .boolean [] | .of .string [] | .of .number [] | .of (.enum _) [] => true
  | .of .maybe [.of .string []] => true
  | _ => false

/-- The types of fields that hold nodes: items, or lists of items. -/
def isPlainType : Position → Bool
  | .list t => isItemType t
  | t => isItemType t

/-- A slot is either for leaves or a position for an item or for a list of items. -/
def isPlainSlot (s : Slot) : Bool :=
  match s.position with
  | none => isLeafType s.type
  | some t => isPlainType t

theorem isPlainSlot_of_mem {k : Kind} {s : Slot} (hs : s ∈ k.slots) : isPlainSlot s = true := by
  have h : Kind.all.all (fun k => k.slots.all isPlainSlot) = true := by decide
  exact List.all_eq_true.1 (Kind.forall_of_all h k) s hs

theorem isLeaf_of_admits {t : TypeSpec} (ht : isLeafType t = true) {v : Tree}
    (hv : t.admits v = true) : v.isLeaf = true := by
  unfold isLeafType at ht
  split at ht <;> cases v <;> simp_all [Spec.admits, Spec.admits?, Tree.isLeaf, Spec.hasMember]

theorem slot_positionType {k : Kind} {s : Slot} (hs : s ∈ k.slots) {type : Position}
    (hp : s.position = some type) :
    s.type.isPrimitive? = some false ∧ s.type.positionType = .ok type := by
  rw [Kind.slots_eq, List.mem_map] at hs
  obtain ⟨⟨name, t⟩, -, rfl⟩ := hs
  simp only [Slot.of, slotType?] at hp ⊢
  cases h : t.isPrimitive? with
  | none => simp [h, throw, throwThe, MonadExceptOf.throw, Except.toOption] at hp
  | some b =>
    cases b with
    | true => simp [h, Except.toOption, pure, Except.pure] at hp
    | false =>
      cases ht : t.positionType with
      | error e => simp [h, ht, Except.toOption, bind, Except.bind] at hp
      | ok p => simpa [h, ht, Except.toOption, bind, Except.bind, pure, Except.pure] using hp

/-- A field that holds nodes admits what inhabits its position. -/
theorem admits_eq_holds {k : Kind} {s : Slot} (hs : s ∈ k.slots) {type : Position}
    (hp : s.position = some type) (v : Tree) : s.type.admits v = type.holds id v := by
  obtain ⟨hprim, hpos⟩ := slot_positionType hs hp
  rw [Spec.admits, Spec.admits?_eq_holds id hprim hpos]
  cases type.holds id v <;> rfl

/-- What inhabits the type of an item is a node or absent. -/
theorem holds_item {t : Position} (ht : isItemType t = true) (v : Tree) :
    t.holds id v = (match v with
      | .node k _ => t.required.takes k
      | .absent => isOptional (some t)
      | _ => false) := by
  unfold isItemType at ht
  split at ht
  · cases v <;> rfl
  · cases v <;> rfl
  · cases ht

theorem isPlainType_of_item {t : Position} (ht : isItemType t = true) :
    isPlainType t = true := by
  unfold isItemType at ht
  split at ht <;> simp_all [isPlainType, isItemType]

theorem plain_cases {t : Position} (ht : isPlainType t = true) :
    (∃ t', t = .list t' ∧ isItemType t' = true) ∨ isItemType t = true := by
  cases t with
  | list t' => exact .inl ⟨t', rfl, ht⟩
  | _ => exact .inr ht

mutual
/-- A value fits strictly exactly if its position admits it and it has no typing error. -/
theorem fits_iff {t : Position} (ht : isPlainType t = true) : ∀ v : Tree,
    v.Fits false t ↔ t.holds id v = true ∧ partTypeErrors v = []
  | .node k fields => by
      have hfields := fieldsFit_iff k (fun s (h : s ∈ k.slots) => h) fields
      obtain ⟨t', rfl, -⟩ | hi := plain_cases ht
      · simp [Tree.Fits, PositionType.holds, PositionType.required, PositionType.takes]
      · rw [holds_item hi]
        exact and_congr_right fun _ => hfields
  | .list items => by
      obtain ⟨t', rfl, hi⟩ | hi := plain_cases ht
      · have hitems := itemsFit_iff_of_item hi 0 items
        simpa [Tree.Fits, PositionType.holds, PositionType.required, partTypeErrors] using hitems
      · rw [holds_item hi]
        refine ⟨?_, fun h => by simp at h⟩
        rintro ⟨t', rfl, -⟩
        cases hi
  | .absent => by
      obtain ⟨t', rfl, -⟩ | hi := plain_cases ht
      · simp [Tree.Fits, PositionType.holds, isOptional]
      · rw [holds_item hi]
        simp [Tree.Fits, partTypeErrors]
  | .bool _ | .int _ | .float _ | .str _ => by
      obtain ⟨t', rfl, -⟩ | hi := plain_cases ht
      · simp [Tree.Fits, PositionType.holds]
      · rw [holds_item hi]
        simp [Tree.Fits]

theorem itemsFit_iff_of_item {t : Position} (ht : isItemType t = true) :
    ∀ (i : Nat) (items : List Tree),
    ItemsFit false t items ↔ items.all (t.holds id ·) = true ∧ itemTypeErrors i items = []
  | _, [] => by simp [ItemsFit, itemTypeErrors]
  | i, .node k fields :: vs => by
      have hv := fits_iff (isPlainType_of_item ht) (.node k fields)
      have hvs := itemsFit_iff_of_item ht (i + 1) vs
      simp only [ItemsFit, itemTypeErrors, List.all_cons, Bool.and_eq_true,
        List.append_eq_nil_iff, List.map_eq_nil_iff, hv, hvs, partTypeErrors]
      tauto
  | i, .list items :: vs => by
      have hv := fits_iff (isPlainType_of_item ht) (.list items)
      simp_all [ItemsFit, holds_item ht]
  | i, .absent :: vs | i, .bool _ :: vs | i, .int _ :: vs | i, .float _ :: vs
  | i, .str _ :: vs => by
      simp only [ItemsFit, itemTypeErrors, List.all_cons, Bool.and_eq_true]
      rw [fits_iff (isPlainType_of_item ht), itemsFit_iff_of_item ht (i + 1) vs]
      simp only [partTypeErrors]
      tauto

/-- The fields of a node fit strictly exactly if they have no typing error. -/
theorem fieldsFit_iff (k : Kind) : ∀ {ss : List Slot}, (∀ s ∈ ss, s ∈ k.slots) →
    ∀ vs : List Tree, FieldsFit false k ss vs ↔ fieldTypeErrors k ss vs = []
  | [], _, [] => by simp [FieldsFit, fieldTypeErrors]
  | [], _, _ :: _ => by simp [FieldsFit, fieldTypeErrors]
  | _ :: _, _, [] => by simp [FieldsFit, fieldTypeErrors]
  | s :: ss, hss, v :: vs => by
      have hs : s ∈ k.slots := hss s (by simp)
      have hplain := isPlainSlot_of_mem hs
      have hvs := fieldsFit_iff k (fun s' (h : s' ∈ ss) => hss s' (by simp [h])) vs
      simp only [FieldsFit, fieldTypeErrors, List.append_eq_nil_iff, slotPosition_strict, hvs]
      refine and_congr_left fun _ => ?_
      simp only [isPlainSlot] at hplain
      cases hp : s.position with
      | none =>
        simp only [hp] at hplain
        cases hv : s.type.admits v with
        | false => simp
        | true =>
          have hleaf := isLeaf_of_admits hplain hv
          cases v <;> simp_all [Tree.isLeaf, partTypeErrors]
      | some type =>
        simp only [hp] at hplain
        rw [admits_eq_holds hs hp]
        simp only
        rw [fits_iff hplain v]
        cases type.holds id v <;> simp
end

/-- A tree is well-typed exactly if it is a node whose fields fit. -/
theorem wellTyped_iff {t : Tree} : t.wellTyped = true ↔ t.IsFit false := by
  cases t with
  | node k fields =>
    rw [Tree.IsFit, fieldsFit_iff k fun _ h => h]
    simp [Tree.wellTyped, typeErrors]
  | _ => simp [Tree.wellTyped, typeErrors, Tree.IsFit]

theorem Tree.IsFit.loosen {t : Tree} (h : t.IsFit false) : t.IsFit true := by
  cases t with
  | node k fields => exact FieldsFit.loosen h
  | _ => exact h.elim

end Whittle
