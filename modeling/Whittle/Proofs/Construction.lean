import Whittle.Proofs.Typing

/-!
# Making nodes that fit

Fields fit by the written types that the grammar gives them, so a node whose fields are taken
over from nodes that fit can be checked field by field. Fields that fit are admitted: the
construction of such a node succeeds.
-/

namespace Whittle

open Grammar Whittle.Language

variable {loose : Bool}

/-- Whether a value fits a field of a written type. -/
def FitsType (loose : Bool) (t : TypeSpec) (v : Tree) : Prop :=
  match (slotType? t).toOption.join with
  | some type => v.Fits loose type
  | none => t.admits v = true

/-- Only where fits are loose, and what is exported may be more than its type says, a slot is
not the position of its type. -/
theorem slotPosition_eq {k : Kind} (hk : loose = false ∨ k.exports = false) (s : Slot) :
    slotPosition loose k s = s.position := by
  obtain rfl | hk := hk
  · exact slotPosition_strict k s
  · exact slotPosition_of_not_exports hk s

theorem fitsSlot_of {k : Kind} (hk : loose = false ∨ k.exports = false)
    (field : String × TypeSpec) (v : Tree) :
    FitsSlot loose k (Slot.of field) v ↔ FitsType loose field.2 v := by
  rw [FitsSlot, slotPosition_eq hk]
  rfl

/-- Fields fit by their written types. -/
theorem fieldsFit_iff_fitsType {k : Kind} (hk : loose = false ∨ k.exports = false)
    {vs : List Tree} : FieldsFit loose k k.slots vs ↔
      List.Forall₂ (fun f v => FitsType loose f.2 v) k.fields vs := by
  rw [Kind.slots_eq]
  induction k.fields generalizing vs with
  | nil => cases vs <;> simp [FieldsFit]
  | cons f fs ih =>
    cases vs with
    | nil => simp [FieldsFit]
    | cons v vs => rw [List.map_cons, fieldsFit_cons, fitsSlot_of hk, ih, List.forall₂_cons]

section Shapes

variable {k : Kind} {vs : List Tree} {f f₁ f₂ f₃ f₄ : String × TypeSpec}

theorem fit_zero (hk : k.exports = false) (hfields : k.fields = []) :
    FieldsFit loose k k.slots vs ↔ vs = [] := by
  rw [fieldsFit_iff_fitsType (.inr hk), hfields, List.forall₂_nil_left_iff]

theorem fit_one (hk : k.exports = false) (hfields : k.fields = [f]) :
    FieldsFit loose k k.slots vs ↔ ∃ a, vs = [a] ∧ FitsType loose f.2 a := by
  rw [fieldsFit_iff_fitsType (.inr hk), hfields]
  simp [List.forall₂_cons_left_iff, and_comm]

theorem fit_two (hk : k.exports = false) (hfields : k.fields = [f, f₁]) :
    FieldsFit loose k k.slots vs ↔ ∃ a b, vs = [a, b] ∧ FitsType loose f.2 a ∧
      FitsType loose f₁.2 b := by
  rw [fieldsFit_iff_fitsType (.inr hk), hfields]
  constructor
  · rintro (_ | ⟨ha, _ | ⟨hb, _ | _⟩⟩)
    exact ⟨_, _, rfl, ha, hb⟩
  · rintro ⟨a, b, rfl, ha, hb⟩
    exact .cons ha (.cons hb .nil)

theorem fit_three (hk : k.exports = false) (hfields : k.fields = [f, f₁, f₂]) :
    FieldsFit loose k k.slots vs ↔ ∃ a b c, vs = [a, b, c] ∧ FitsType loose f.2 a ∧
      FitsType loose f₁.2 b ∧ FitsType loose f₂.2 c := by
  rw [fieldsFit_iff_fitsType (.inr hk), hfields]
  constructor
  · rintro (_ | ⟨ha, _ | ⟨hb, _ | ⟨hc, _ | _⟩⟩⟩)
    exact ⟨_, _, _, rfl, ha, hb, hc⟩
  · rintro ⟨a, b, c, rfl, ha, hb, hc⟩
    exact .cons ha (.cons hb (.cons hc .nil))

theorem fit_four (hk : k.exports = false) (hfields : k.fields = [f, f₁, f₂, f₃]) :
    FieldsFit loose k k.slots vs ↔ ∃ a b c d, vs = [a, b, c, d] ∧ FitsType loose f.2 a ∧
      FitsType loose f₁.2 b ∧ FitsType loose f₂.2 c ∧ FitsType loose f₃.2 d := by
  rw [fieldsFit_iff_fitsType (.inr hk), hfields]
  constructor
  · rintro (_ | ⟨ha, _ | ⟨hb, _ | ⟨hc, _ | ⟨hd, _ | _⟩⟩⟩⟩)
    exact ⟨_, _, _, _, rfl, ha, hb, hc, hd⟩
  · rintro ⟨a, b, c, d, rfl, ha, hb, hc, hd⟩
    exact .cons ha (.cons hb (.cons hc (.cons hd .nil)))

theorem fit_five (hk : k.exports = false) (hfields : k.fields = [f, f₁, f₂, f₃, f₄]) :
    FieldsFit loose k k.slots vs ↔ ∃ a b c d e, vs = [a, b, c, d, e] ∧
      FitsType loose f.2 a ∧ FitsType loose f₁.2 b ∧ FitsType loose f₂.2 c ∧
      FitsType loose f₃.2 d ∧ FitsType loose f₄.2 e := by
  rw [fieldsFit_iff_fitsType (.inr hk), hfields]
  constructor
  · rintro (_ | ⟨ha, _ | ⟨hb, _ | ⟨hc, _ | ⟨hd, _ | ⟨he, _ | _⟩⟩⟩⟩⟩)
    exact ⟨_, _, _, _, _, rfl, ha, hb, hc, hd, he⟩
  · rintro ⟨a, b, c, d, e, rfl, ha, hb, hc, hd, he⟩
    exact .cons ha (.cons hb (.cons hc (.cons hd (.cons he .nil))))

end Shapes

/-- The type of the position that a field of a written type is. -/
def positionOf (t : TypeSpec) : Option Position :=
  (slotType? t).toOption.join

/-- Of a union, the nodes fit whose kinds are members and whose fields fit. -/
theorem fitsType_union {t : TypeSpec} {ms : List (Head Kind)} (ht : positionOf t = some (.union ms))
    {v : Tree} : FitsType loose t v ↔ ∃ k fields, v = .node k fields ∧
      (PositionType.union ms).takes k = true ∧ FieldsFit loose k k.slots fields := by
  rw [positionOf] at ht
  rw [FitsType, ht]
  cases v <;> simp [Tree.Fits, PositionType.required, isOptional]

/-- Of an optional union, what fits the union fits, and nothing fits too. -/
theorem fitsType_maybe {t : TypeSpec} {ms : List (Head Kind)}
    (ht : positionOf t = some (.maybe (.union ms))) {v : Tree} :
    FitsType loose t v ↔ v = .absent ∨ ∃ k fields, v = .node k fields ∧
      (PositionType.union ms).takes k = true ∧ FieldsFit loose k k.slots fields := by
  rw [positionOf] at ht
  rw [FitsType, ht]
  cases v <;> simp [Tree.Fits, PositionType.required, isOptional]

theorem positionOf_eq_some {t : TypeSpec} {type : Position} :
    positionOf t = some type ↔ t.isPrimitive? = some false ∧ t.positionType = .ok type := by
  simp only [positionOf, slotType?]
  cases t.isPrimitive? with
  | none => simp [throw, throwThe, MonadExceptOf.throw, Except.toOption]
  | some b =>
    cases b with
    | true => simp [Except.toOption, pure, Except.pure]
    | false =>
      cases t.positionType <;> simp [Except.toOption, bind, Except.bind, pure, Except.pure]

theorem positionOf_list {t : TypeSpec} {type : Position} (ht : positionOf t = some type) :
    positionOf (.list t) = some (.list type) := by
  obtain ⟨hprim, hpos⟩ := positionOf_eq_some.1 ht
  refine positionOf_eq_some.2 ⟨hprim, ?_⟩
  rw [Spec.list, Spec.positionType, hpos]
  rfl

theorem positionOf_maybe {t : TypeSpec} {type : Position} (ht : positionOf t = some type) :
    positionOf (.maybe t) = some (.maybe type) := by
  obtain ⟨hprim, hpos⟩ := positionOf_eq_some.1 ht
  refine positionOf_eq_some.2 ⟨hprim, ?_⟩
  rw [Spec.maybe, Spec.positionType, hpos]
  rfl

/-- Of a list type, the lists fit all of whose items fit. -/
theorem fitsType_list {t : TypeSpec} {type : Position} (ht : positionOf t = some type)
    {v : Tree} : FitsType loose (.list t) v ↔ ∃ items, v = .list items ∧
      ∀ w ∈ items, FitsType loose t w := by
  have hlist := positionOf_list ht
  rw [positionOf] at ht hlist
  simp only [FitsType, ht, hlist]
  cases v <;> simp [Tree.Fits, PositionType.required, PositionType.takes, isOptional,
    itemsFit_iff]

theorem fitsType_leaf {t : TypeSpec} (ht : positionOf t = none) {v : Tree} :
    FitsType loose t v ↔ t.admits v = true := by
  rw [positionOf] at ht
  rw [FitsType, ht]

/-- The type of a single kind of nodes. -/
theorem fitsType_node {k : Kind} {v : Tree} : FitsType loose (.node k) v ↔
    ∃ fields, v = .node k fields ∧ FieldsFit loose k k.slots fields := by
  have hk : positionOf (.node k) = some (.union [.named k]) := by cases k <;> rfl
  rw [fitsType_union hk]
  simp [PositionType.takes, eq_comm]

theorem fitsType_string {v : Tree} : FitsType loose .string v ↔ ∃ s, v = .str s := by
  rw [fitsType_leaf rfl]
  cases v <;> simp [Spec.admits, Spec.admits?, Spec.string, Spec.atom, Spec.hasMember]

theorem fitsType_boolean {v : Tree} : FitsType loose .boolean v ↔ ∃ b, v = .bool b := by
  rw [fitsType_leaf rfl]
  cases v <;> simp [Spec.admits, Spec.admits?, Spec.boolean, Spec.atom, Spec.hasMember]

theorem isExpression_eq (k : Kind) :
    k.isExpression = (positionOf expression).any (·.takes k) := by
  simp [Kind.isExpression, Kind.slots_eq, Kind.fields, Slot.of, positionOf, named]

theorem fitsType_expression {v : Tree} : FitsType loose expression v ↔
    ∃ k fields, v = .node k fields ∧ k.isExpression = true ∧
      FieldsFit loose k k.slots fields := by
  obtain ⟨ms, hms⟩ : ∃ ms, positionOf expression = some (.union ms) := ⟨_, rfl⟩
  simp only [fitsType_union hms, isExpression_eq, hms, Option.any_some]

/-! ## Construction -/

/-- What fits a position inhabits it. -/
theorem holds_of_fits {type : Position} (htype : isPlainType type = true) {v : Tree}
    (h : v.Fits loose type) : type.holds id v = true := by
  cases v with
  | node k fields =>
    obtain ⟨t', rfl, -⟩ | hi := plain_cases htype
    · exact absurd h.1 (by simp [PositionType.required, PositionType.takes])
    · rw [holds_item hi]
      exact h.1
  | list items =>
    obtain ⟨t', rfl, hitems⟩ := h
    have ht' : isItemType t' = true := htype
    refine List.all_eq_true.2 fun w hw => ?_
    have hw := itemsFit_iff.1 hitems w hw
    rw [holds_item ht']
    cases w with
    | node k fields => exact hw.1
    | absent => exact hw
    | list items =>
      obtain ⟨_, rfl, -⟩ := hw
      cases ht'
    | _ => exact hw.elim
  | absent =>
    obtain ⟨t', rfl, -⟩ | hi := plain_cases htype
    · cases h
    · rw [holds_item hi]
      exact h
  | _ => exact h.elim

theorem admits_of_fitsSlot {k : Kind} (hk : loose = false ∨ k.exports = false) {s : Slot}
    (hs : s ∈ k.slots) {v : Tree} (h : FitsSlot loose k s v) : s.type.admits v = true := by
  rw [FitsSlot, slotPosition_eq hk] at h
  have hplain := isPlainSlot_of_mem hs
  rw [isPlainSlot] at hplain
  cases hp : s.position with
  | none =>
    rw [hp] at h
    exact h
  | some type =>
    rw [hp] at h hplain
    rw [admits_eq_holds hs hp]
    exact holds_of_fits hplain h

theorem checkValues_of_fieldsFit {k : Kind} (hk : loose = false ∨ k.exports = false) :
    ∀ {ss : List Slot}, (∀ s ∈ ss, s ∈ k.slots) → ∀ {vs : List Tree}, FieldsFit loose k ss vs →
    Node.checkValues k ss vs = .ok ()
  | [], _, [], _ => rfl
  | s :: ss, hss, v :: vs, h => by
      have hv := admits_of_fitsSlot hk (hss s (by simp)) h.1
      rw [Node.checkValues, if_pos hv]
      exact checkValues_of_fieldsFit hk (fun s' hs' => hss s' (by simp [hs'])) h.2
  | [], _, _ :: _, h => h.elim
  | _ :: _, _, [], h => h.elim

/-- A node whose fields fit can be made. -/
theorem make_of_fieldsFit {k : Kind} (hk : loose = false ∨ k.exports = false) {vs : List Tree}
    (h : FieldsFit loose k k.slots vs) : Node.make k vs = .ok (.node k vs) := by
  simp only [Node.make, checkValues_of_fieldsFit hk (fun _ hs => hs) h]
  rfl

theorem newNode_of_fieldsFit {k : Kind} (hk : k.exports = false) {vs : List Tree}
    (h : FieldsFit loose k k.slots vs) : newNode k vs = .ok (.node k vs) := by
  rw [newNode, make_of_fieldsFit (.inr hk) h]
  rfl

/-- An expression that fits makes an expression statement that fits. -/
theorem fieldsFit_expressionStatement {k : Kind} {fields : List Tree}
    (hk : k.isExpression = true) (h : FieldsFit loose k k.slots fields) :
    FieldsFit loose .expressionStatement Kind.expressionStatement.slots [.node k fields] := by
  exact (fit_one rfl rfl).2 ⟨_, rfl, fitsType_expression.2 ⟨k, fields, rfl, hk, h⟩⟩

/-- Statements that fit make a block statement that fits. -/
theorem fieldsFit_blockStatement {ss : Tree} (h : FitsType loose (.list statement) ss) :
    FieldsFit loose .block Kind.block.slots [ss] ∧
    FieldsFit loose .blockStatement Kind.blockStatement.slots [.node .block [ss]] := by
  have hblock : FieldsFit loose .block Kind.block.slots [ss] := (fit_one rfl rfl).2 ⟨_, rfl, h⟩
  exact ⟨hblock, (fit_one rfl rfl).2 ⟨_, rfl, fitsType_node.2 ⟨_, rfl, hblock⟩⟩⟩

end Whittle
