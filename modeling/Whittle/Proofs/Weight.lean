import Whittle.Proofs.Construction
import Whittle.Proofs.Frames
import Whittle.Edit.Weight

/-!
# Weight and frames

Of two values in the hole of a frame, the lighter one makes the frame lighter, unless something
that is no expression takes the place of an expression in an expression statement, where it does
not fit. A frame adds weight to what is in its hole: the least for the statement of an
expression, then for a block statement, then for all others.
-/

namespace Whittle

open Grammar Whittle.Language

variable {loose : Bool}

/-! ## Lists of values -/

theorem itemsWeight_append (xs ys : List Tree) :
    itemsWeight (xs ++ ys) = itemsWeight xs + itemsWeight ys := by
  induction xs with
  | nil => simp [itemsWeight]
  | cons x xs ih =>
    simp only [List.cons_append, itemsWeight, ih]
    omega

theorem itemsWeight_middle (before : List Tree) (t : Tree) (after : List Tree) :
    itemsWeight (before ++ t :: after) = 3 + t.weight + itemsWeight (before ++ after) := by
  induction before with
  | nil => simp [itemsWeight]
  | cons b before ih =>
    simp only [List.cons_append, itemsWeight, ih]
    omega

/-- What a field of a node weighs. -/
def fieldWeight (k : Kind) (field : String) (t : Tree) : Nat :=
  match simplestText? k field with
  | some s => if t.isText s then 1 else 2 + t.weight
  | none => t.weight

theorem fieldsWeight_cons (k : Kind) (f : String) (fs : List String) (t : Tree)
    (ts : List Tree) :
    fieldsWeight k (f :: fs) (t :: ts) = fieldWeight k f t + fieldsWeight k fs ts := by
  rw [fieldsWeight]
  rfl

theorem fieldsWeight_nil (k : Kind) (fs : List String) : fieldsWeight k fs [] = 0 := by
  cases fs <;> rfl

/-- A field that holds no text with a simplest form counts with the weight of its value. -/
theorem fieldWeight_plain {k : Kind} {field : String} (h : simplestText? k field = none)
    (t : Tree) : fieldWeight k field t = t.weight := by
  rw [fieldWeight, h]

theorem fieldWeight_text {k : Kind} {field simplest : String}
    (h : simplestText? k field = some simplest) (s : String) :
    fieldWeight k field (.str s) = if s = simplest then 1 else 3 := by
  rw [fieldWeight, h]
  simp [Tree.isText, Tree.weight]

theorem fieldsWeight_middle {k : Kind} {name : String} (hname : simplestText? k name = none)
    {names : List String} {before after : List Tree} (t : Tree)
    (hn : names[before.length]? = some name) :
    fieldsWeight k names (before ++ t :: after)
      = t.weight + fieldsWeight k names (before ++ .absent :: after) := by
  induction before generalizing names with
  | nil =>
    cases names with
    | nil => cases hn
    | cons n names =>
      cases hn
      simp [fieldsWeight_cons, fieldWeight_plain hname, Tree.weight]
  | cons b before ih =>
    cases names with
    | nil => cases hn
    | cons n names =>
      simp only [List.cons_append, fieldsWeight_cons, ih hn]
      omega

theorem simplestText?_of_position {k : Kind} {s : Slot} (hs : s ∈ k.slots)
    (hp : s.position.isSome = true) : simplestText? k s.name = none := by
  have h : Kind.all.all (fun k => k.slots.all fun s =>
      !s.position.isSome || (simplestText? k s.name).isNone) = true := by decide
  have := List.all_eq_true.1 (Kind.forall_of_all h k) s hs
  simpa [hp] using this

/-! ## Nodes -/

theorem Kind.fieldNames_eq (k : Kind) : k.fieldNames = k.fields.map (·.1) := by
  simp [Kind.fieldNames, Kind.slots_eq, Slot.of, Function.comp_def]

/-- Whether a value is an expression. -/
def Tree.isExpression : Tree → Bool
  | .node k _ => k.isExpression
  | _ => false

theorem nodeWeight_of_ne {k : Kind} (hk : k ≠ .expressionStatement) (fields : List Tree) :
    nodeWeight k fields = k.weight := by
  unfold nodeWeight
  split
  · exact absurd rfl hk
  · rfl

/-- An expression statement is light if it holds an expression and nothing else. -/
theorem nodeWeight_expressionStatement (fields : List Tree) :
    nodeWeight .expressionStatement fields
      = if fields.length = 1 ∧ fields.all (·.isExpression) = true then 1 else 3 := by
  unfold nodeWeight
  split
  · rename_i l fs heq
    simp [Tree.isExpression]
  · rename_i hne
    rw [if_neg]
    · rfl
    · rintro ⟨hlen, hall⟩
      obtain ⟨t, rfl⟩ := List.length_eq_one_iff.1 hlen
      cases t <;> simp_all [Tree.isExpression]

/-- What a node of a kind weighs besides its fields if they fit, and at the least. -/
def Kind.fitWeight : Kind → Nat
  | .expressionStatement => 1
  | k => k.weight

theorem Kind.fitWeight_pos (k : Kind) : 0 < k.fitWeight := by
  cases k <;> decide

theorem fitWeight_le_nodeWeight (k : Kind) (fields : List Tree) :
    k.fitWeight ≤ nodeWeight k fields := by
  by_cases hk : k = .expressionStatement
  · subst hk
    rw [nodeWeight_expressionStatement]
    split <;> simp [Kind.fitWeight]
  · rw [nodeWeight_of_ne hk]
    cases k <;> simp_all [Kind.fitWeight]

theorem weight_pos (k : Kind) (fields : List Tree) : 0 < (Tree.node k fields).weight := by
  have hpos := k.fitWeight_pos
  have hle := fitWeight_le_nodeWeight k fields
  rw [Tree.weight]
  omega

theorem nodeWeight_of_fit {k : Kind} {fields : List Tree} (h : FieldsFit loose k k.slots fields) :
    nodeWeight k fields = k.fitWeight := by
  by_cases hk : k = .expressionStatement
  · subst hk
    obtain ⟨v, rfl, hv⟩ := (fit_one rfl rfl).1 h
    obtain ⟨l, fs, rfl, hl, -⟩ := fitsType_expression.1 hv
    simp [nodeWeight, Kind.fitWeight, hl]
  · rw [nodeWeight_of_ne hk]
    cases k <;> first | rfl | exact absurd rfl hk

theorem weight_of_fit {k : Kind} {fields : List Tree} (h : FieldsFit loose k k.slots fields) :
    (Tree.node k fields).weight = k.fitWeight + fieldsWeight k k.fieldNames fields := by
  rw [Tree.weight, nodeWeight_of_fit h]

/-- Whether a kind has a text with a simplest form. -/
def Kind.hasText : Kind → Bool
  | .directive | .templateElement | .literalStringExpression | .staticPropertyName
  | .literalRegExpExpression | .staticMemberExpression | .staticMemberAssignmentTarget => true
  | _ => false

theorem simplestText?_of_not_hasText {k : Kind} (hk : k.hasText = false) (field : String) :
    simplestText? k field = none := by
  cases k <;> first | rfl | cases hk

theorem fieldsWeight_of_not_hasText {k : Kind} (hk : k.hasText = false) :
    ∀ (names : List String) (vs : List Tree),
    fieldsWeight k names vs = (vs.map Tree.weight).sum
  | names, [] => by simp [fieldsWeight_nil]
  | [], v :: vs => by
      rw [fieldsWeight, fieldsWeight_of_not_hasText hk]
      simp
  | name :: names, v :: vs => by
      rw [fieldsWeight_cons, fieldsWeight_of_not_hasText hk,
        fieldWeight_plain (simplestText?_of_not_hasText hk name)]
      simp

/-- A node without a text of a simplest form weighs what its kind and its fields weigh. -/
theorem weight_node {k : Kind} (hk : k.hasText = false) (he : k ≠ .expressionStatement)
    (fields : List Tree) :
    (Tree.node k fields).weight = k.weight + (fields.map Tree.weight).sum := by
  rw [Tree.weight, nodeWeight_of_ne he, fieldsWeight_of_not_hasText hk]

/-- As the wrapper of an expression, an expression statement adds a weight of one. -/
theorem weight_statementOf {k : Kind} (hk : k.isExpression = true) (fields : List Tree) :
    (Tree.node .expressionStatement [.node k fields]).weight
      = 1 + (Tree.node k fields).weight := by
  rw [Tree.weight, fieldsWeight_of_not_hasText rfl, nodeWeight_expressionStatement]
  simp [Tree.isExpression, hk]

theorem weight_absent : Tree.absent.weight = 0 := rfl

theorem weight_false : (Tree.bool false).weight = 1 := rfl

theorem weight_true : (Tree.bool true).weight = 2 := rfl

theorem weight_list (items : List Tree) : (Tree.list items).weight = itemsWeight items := rfl

/-! ## Parts -/

theorem weight_le_fieldWeight (k : Kind) (field : String) (t : Tree) :
    t.weight ≤ fieldWeight k field t := by
  unfold fieldWeight
  split
  · split
    · cases t <;> simp_all [Tree.isText, Tree.weight]
    · exact Nat.le_add_left ..
  · exact Nat.le_refl _

theorem weight_le_fieldsWeight (k : Kind) {t : Tree} : ∀ (names : List String) {ts : List Tree},
    t ∈ ts → t.weight ≤ fieldsWeight k names ts
  | [], u :: us, h => by
      rw [fieldsWeight]
      rcases List.mem_cons.1 h with rfl | h
      · exact Nat.le_add_right ..
      · exact (weight_le_fieldsWeight k [] h).trans (Nat.le_add_left ..)
  | name :: names, u :: us, h => by
      rw [fieldsWeight_cons]
      rcases List.mem_cons.1 h with rfl | h
      · exact (weight_le_fieldWeight k name t).trans (Nat.le_add_right ..)
      · exact (weight_le_fieldsWeight k names h).trans (Nat.le_add_left ..)

theorem weight_le_itemsWeight {t : Tree} {ts : List Tree} (h : t ∈ ts) :
    3 + t.weight ≤ itemsWeight ts := by
  induction ts with
  | nil => cases h
  | cons u us ih =>
    rw [itemsWeight]
    rcases List.mem_cons.1 h with rfl | h
    · exact Nat.le_add_right ..
    · exact (ih h).trans (Nat.le_add_left ..)

/-- What a step leads to is one of the parts. -/
theorem Tree.mem_parts_of_childAt {t c : Tree} {s : Step} (h : t.childAt s = .ok c) :
    c ∈ t.parts := by
  obtain ⟨i, -, hc⟩ := childAt_eq_ok.1 h
  exact List.mem_of_getElem? hc

theorem Tree.mem_parts_of_child {t c : Tree} {s : Step} (h : t.child s = .ok c) : c ∈ t.parts :=
  mem_parts_of_childAt (by rw [childAt, h]; rfl)

/-- A node weighs at least what one of its fields and the node itself weigh. -/
theorem weight_field_le {k : Kind} {fields : List Tree} {t : Tree} (h : t ∈ fields) :
    nodeWeight k fields + t.weight ≤ (Tree.node k fields).weight := by
  rw [Tree.weight]
  exact Nat.add_le_add_left (weight_le_fieldsWeight k _ h) _

/-- A value weighs no less than one of its parts. -/
theorem Tree.weight_part_le {t c : Tree} (h : c ∈ t.parts) : c.weight ≤ t.weight := by
  cases t with
  | list items =>
    have hle : 3 + c.weight ≤ itemsWeight items := weight_le_itemsWeight h
    rw [weight_list]
    omega
  | node k fields =>
    have hle : nodeWeight k fields + c.weight ≤ _ := weight_field_le h
    omega
  | _ => cases h

/-- What a path leads to weighs no more than the whole. -/
theorem Tree.weight_get_le {t u : Tree} {path : Path} (h : t.get path = .ok u) :
    u.weight ≤ t.weight := by
  induction path generalizing t with
  | nil =>
    cases h
    exact Nat.le_refl _
  | cons s p ih =>
    obtain ⟨c, hc, hrest⟩ := get_cons_eq_ok.1 h
    exact (ih hrest).trans (weight_part_le (mem_parts_of_childAt hc))

/-! ## Frames -/

/-- What a frame weighs besides what is in its hole, at the least; of a node no more than its
kind's own weight is counted. -/
def Frame.gain : Frame → Nat
  | .field k _ _ => k.fitWeight
  | .item _ _ => 3

/-- A node weighs what is in one of its positions, what it weighs itself, and some more. -/
theorem weight_plug_field {k : Kind} {before after : List Tree}
    (hf : (Frame.field k before after).isPosition = true) (t : Tree) :
    ((Frame.field k before after).plug t).weight = t.weight + nodeWeight k (before ++ t :: after)
      + fieldsWeight k k.fieldNames (before ++ .absent :: after) := by
  obtain ⟨s, p, hs, hp⟩ := Frame.slot?_of_isPosition hf
  have hname := simplestText?_of_position (List.mem_of_getElem? hs) (by rw [hp]; rfl)
  have hnames : k.fieldNames[before.length]? = some s.name := by
    simp [Kind.fieldNames, hs]
  rw [Frame.plug, Tree.weight, fieldsWeight_middle hname t hnames]
  omega

theorem weight_plug_item (before after : List Tree) (t : Tree) :
    ((Frame.item before after).plug t).weight = t.weight + 3 + itemsWeight (before ++ after) := by
  rw [Frame.plug, Tree.weight, itemsWeight_middle]
  omega

/-- A frame weighs more than what is in its hole. -/
theorem gain_le_weight_plug {f : Frame} (hf : f.isPosition = true) (t : Tree) :
    t.weight + f.gain ≤ (f.plug t).weight := by
  cases f with
  | field k before after =>
    have hle := fitWeight_le_nodeWeight k (before ++ t :: after)
    rw [weight_plug_field hf, Frame.gain]
    omega
  | item before after =>
    rw [weight_plug_item, Frame.gain]
    omega

theorem le_weight_plugAll {fs : List Frame} (hfs : Positions fs) (t : Tree) :
    t.weight ≤ (plugAll fs t).weight := by
  induction fs generalizing t with
  | nil => exact Nat.le_refl _
  | cons f fs ih =>
    have hf := gain_le_weight_plug (hfs f List.mem_cons_self) t
    have hrest := ih hfs.tail (f.plug t)
    rw [plugAll_cons]
    omega

/-- If the innermost frame is an expression statement, an expression in its hole gives way to
an expression only. -/
def KeepsExpression (fs : List Frame) (t v : Tree) : Prop :=
  ∀ f ∈ fs.head?, f.occupant = some .expressionStatement → t.isExpression = true →
    v.isExpression = true

/-- Around the innermost frame, what is in the hole does not matter. -/
theorem keepsExpression_plug (fs : List Frame) (f : Frame) (t v : Tree) :
    KeepsExpression fs (f.plug t) (f.plug v) := by
  intro g _ _ h
  cases f with
  | field k before after => exact h
  | item before after => cases h

/-- The weight of the frame changes by no more than the weight of what is in its hole. -/
theorem weight_plug_le {f : Frame} {fs : List Frame} (hf : f.isPosition = true) {t v : Tree}
    (h : KeepsExpression (f :: fs) t v) :
    (f.plug v).weight + t.weight ≤ (f.plug t).weight + v.weight := by
  cases f with
  | item before after =>
    rw [weight_plug_item, weight_plug_item]
    omega
  | field k before after =>
    have hnode : nodeWeight k (before ++ v :: after) ≤ nodeWeight k (before ++ t :: after) := by
      by_cases hk : k = .expressionStatement
      · subst hk
        have hkeep := h _ rfl rfl
        rw [nodeWeight_expressionStatement, nodeWeight_expressionStatement]
        simp only [List.length_append, List.length_cons, List.all_append, List.all_cons,
          Bool.and_eq_true]
        split
        · split <;> simp
        · rename_i hv
          rw [if_neg]
          rintro ⟨hlen, hbefore, ht, hafter⟩
          exact hv ⟨hlen, hbefore, hkeep ht, hafter⟩
      · rw [nodeWeight_of_ne hk, nodeWeight_of_ne hk]
    rw [weight_plug_field hf, weight_plug_field hf]
    omega

theorem weight_plugAll_le {fs : List Frame} (hfs : Positions fs) {t v : Tree}
    (h : KeepsExpression fs t v) :
    (plugAll fs v).weight + t.weight ≤ (plugAll fs t).weight + v.weight := by
  induction fs generalizing t v with
  | nil => exact Nat.le_of_eq (Nat.add_comm ..)
  | cons f fs ih =>
    have hhole := weight_plug_le (hfs f List.mem_cons_self) h
    have hrest := ih hfs.tail (keepsExpression_plug fs f t v)
    rw [plugAll_cons, plugAll_cons]
    omega

/-- The hole of an expression statement takes expressions, always needs one, and takes nothing
else. -/
theorem holeType_expressionStatement {before after : List Tree}
    (hf : (Frame.field .expressionStatement before after).isPosition = true)
    (type : Option Position) :
    ∃ p, (Frame.field .expressionStatement before after).holeType loose type = some p ∧
      isOptional (some p) = false ∧ ∀ k, p.required.takes k = k.isExpression := by
  obtain ⟨s, p, hs, hp⟩ := Frame.slot?_of_isPosition hf
  have hslots : Kind.expressionStatement.slots = [s] := by
    have hlength : Kind.expressionStatement.slots.length = 1 := rfl
    obtain ⟨s', hs'⟩ := List.length_eq_one_iff.1 hlength
    rw [hs'] at hs ⊢
    rw [List.mem_singleton.1 (List.mem_of_getElem? hs)]
  have hunion : ∃ ms, p = .union ms := by
    obtain ⟨ms, hms⟩ : ∃ ms, Kind.expressionStatement.slots.head?.bind (·.position)
      = some (.union ms) := ⟨_, rfl⟩
    rw [hslots, List.head?_cons, Option.bind_some, hp] at hms
    exact ⟨ms, Option.some.inj hms⟩
  obtain ⟨ms, rfl⟩ := hunion
  refine ⟨.union ms, ?_, rfl, fun k => ?_⟩
  · rw [Frame.holeType, Frame.slot?, hs, Option.bind_some, slotPosition_of_not_exports rfl, hp]
  · simp [Kind.isExpression, hslots, hp, PositionType.required]

/-- What fits the hole of an expression statement is an expression. -/
theorem keepsExpression_of_fits {type : Option Position} {fs : List Frame} (hfs : Positions fs)
    {v : Tree} (hv : FitsAt loose (holeTypeOf loose type fs) v) (t : Tree) :
    KeepsExpression fs t v := by
  intro f hf hocc _
  cases fs with
  | nil => cases hf
  | cons g fs =>
    cases hf
    cases f with
    | item before after => cases hocc
    | field k before after =>
      cases hocc
      obtain ⟨p, htype, hopt, htakes⟩ :=
        @holeType_expressionStatement loose _ _ (hfs _ List.mem_cons_self)
          (holeTypeOf loose type fs)
      rw [holeTypeOf, htype] at hv
      cases v with
      | node l fields => exact (htakes l).symm.trans hv.1
      | list items =>
        obtain ⟨t', rfl, -⟩ := hv
        have := htakes .literalNullExpression
        cases this
      | absent => cases hopt.symm.trans hv
      | _ => exact hv.elim

/-- Something lighter that fits in the place of a part makes the whole lighter. -/
theorem weight_plugAll_lt {type : Option Position} {fs : List Frame} (hfs : Positions fs)
    {t v : Tree} (hv : FitsAt loose (holeTypeOf loose type fs) v) (hlt : v.weight < t.weight) :
    (plugAll fs v).weight < (plugAll fs t).weight := by
  have hle := weight_plugAll_le hfs (keepsExpression_of_fits hfs hv t)
  omega

end Whittle
