import Whittle.Proofs.Weight

/-!
# Strays

In a tree that is not well-typed `null` may stand where only statements belong, and the empty
statement where only expressions do. Such a stray may be replaced by the other sentinel, which
weighs as much, so the weight of a tree does not always go down. The number of strays does: no
position takes both sentinels, so what has come to stand where it belongs stays. The burden of a
value at a position is its weight together with the strays in it.
-/

namespace Whittle

open Grammar Whittle.Language

/-! ## Positions -/

/-- Whether a position takes no more than one of the sentinels, and so do its items. -/
def isExclusive : Position → Bool
  | .union ms => !(sentinelKinds.all fun s => (PositionType.union ms).takes s)
  | .list t => isExclusive t
  | .maybe t => isExclusive t

/-- Whether a type, if there is one, is exclusive. -/
def Exclusive (type : Option Position) : Prop := ∀ t ∈ type, isExclusive t = true

theorem exclusive_none : Exclusive none := by simp [Exclusive]

theorem exclusive_slot {k : Kind} {s : Slot} (hs : s ∈ k.slots) : Exclusive s.position := by
  have h : Kind.all.all (fun k => k.slots.all fun s => s.position.all isExclusive) = true := by
    decide
  have hslot := List.all_eq_true.1 (Kind.forall_of_all h k) s hs
  intro t ht
  rw [Option.mem_def] at ht
  rwa [ht] at hslot

theorem Exclusive.item {type : Option Position} (h : Exclusive type) :
    Exclusive (itemType? type) := by
  unfold itemType?
  split
  · intro t ht
    cases ht
    exact h (.list _) rfl
  · exact exclusive_none

/-- All positions inside an exclusive one are exclusive. -/
theorem Exclusive.hole {type : Option Position} (h : Exclusive type) (fs : List Frame) :
    Exclusive (holeTypeOf false type fs) := by
  induction fs with
  | nil => exact h
  | cons f fs ih =>
    cases f with
    | item before after => exact ih.item
    | field k before after =>
      rw [holeTypeOf, Frame.holeType, Frame.slot?]
      cases hs : k.slots[before.length]? with
      | none => exact exclusive_none
      | some s =>
        rw [Option.bind_some, slotPosition_strict]
        exact exclusive_slot (List.mem_of_getElem? hs)

/-! ## Counting strays -/

/-- Whether a node of kind `k` is a sentinel that another one may replace. -/
def isStray (type : Option Position) (k : Kind) : Bool :=
  sentinelKinds.contains k && !(sentinels type k).isEmpty

mutual
/-- The number of strays in a value at a position of the given type. -/
def Tree.strays (type : Option Position) : Tree → Nat
  | .list items => itemsStrays (itemType? type) items
  | .node k fields => (isStray type k).toNat + fieldsStrays k.slots fields
  | _ => 0

/-- The number of strays in the items of a list. -/
def itemsStrays (type : Option Position) : List Tree → Nat
  | [] => 0
  | t :: ts => t.strays type + itemsStrays type ts

/-- The number of strays in the fields of a node. -/
def fieldsStrays : List Slot → List Tree → Nat
  | s :: ss, t :: ts => t.strays s.position + fieldsStrays ss ts
  | [], t :: ts => t.strays none + fieldsStrays [] ts
  | _, [] => 0
end

/-- What a value at a position weighs together with the strays in it. -/
def burden (type : Option Position) (t : Tree) : Nat := t.weight + t.strays type

@[simp] theorem strays_absent (type : Option Position) : Tree.absent.strays type = 0 := rfl

@[simp] theorem strays_bool (type : Option Position) (b : Bool) : (Tree.bool b).strays type = 0 :=
  rfl

@[simp] theorem strays_str (type : Option Position) (s : String) : (Tree.str s).strays type = 0 :=
  rfl

@[simp] theorem isStray_none (k : Kind) : isStray none k = false := by
  simp [isStray, sentinels]

/-- Where a node may stand, it is no stray. -/
theorem isStray_of_takes {type : Option Position} (htype : Exclusive type) {k : Kind}
    (h : type.any (·.required.takes k) = true) : isStray type k = false := by
  cases type with
  | none => exact isStray_none k
  | some t =>
    cases t with
    | union ms =>
      have hex := htype _ rfl
      simp only [isExclusive, sentinelKinds, List.all_cons, List.all_nil, Bool.and_true,
        Bool.not_eq_true', Bool.and_eq_false_iff] at hex
      simp only [Option.any_some, PositionType.required] at h
      -- the position takes the node, so it does not take the other sentinel
      cases hk : sentinelKinds.contains k with
      | false => rw [isStray, hk, Bool.false_and]
      | true =>
        simp only [sentinelKinds, List.contains_iff_mem, List.mem_cons, List.not_mem_nil,
          or_false] at hk
        rcases hk with rfl | rfl
        · have hother := hex.resolve_left (by simp [h])
          simp [isStray, sentinels, sentinelKinds, hother]
        · have hother := hex.resolve_right (by simp [h])
          simp [isStray, sentinels, sentinelKinds, hother]
    | list t => cases h
    | maybe t => simp [isStray, sentinels, PositionType.takes]

mutual
theorem Tree.strays_le_weight (type : Option Position) : ∀ t : Tree, t.strays type ≤ t.weight
  | .list items => itemsStrays_le_weight _ items
  | .node k fields => by
      have hfields := fieldsStrays_le_weight k k.slots k.fieldNames fields
      have hpos := k.fitWeight_pos.trans_le (fitWeight_le_nodeWeight k fields)
      have hown := (Bool.toNat_le (isStray type k)).trans hpos
      rw [Tree.strays, Tree.weight]
      omega
  | .absent | .bool _ | .int _ | .float _ | .str _ => Nat.zero_le _

theorem itemsStrays_le_weight (type : Option Position) : ∀ ts : List Tree,
    itemsStrays type ts ≤ itemsWeight ts
  | [] => Nat.le_refl 0
  | t :: ts => by
      have ht := t.strays_le_weight type
      have hts := itemsStrays_le_weight type ts
      rw [itemsStrays, itemsWeight]
      omega

theorem fieldsStrays_le_weight (k : Kind) : ∀ (ss : List Slot) (names : List String)
    (ts : List Tree), fieldsStrays ss ts ≤ fieldsWeight k names ts
  | _, _, [] => by simp [fieldsStrays]
  | ss, names, t :: ts => by
      have hstrays : fieldsStrays ss (t :: ts)
          = t.strays (ss.head?.bind (·.position)) + fieldsStrays ss.tail ts := by
        cases ss <;> rfl
      have hweight : t.weight + fieldsWeight k names.tail ts ≤ fieldsWeight k names (t :: ts) := by
        cases names with
        | nil => exact Nat.le_refl _
        | cons name names =>
          rw [fieldsWeight_cons]
          exact Nat.add_le_add_right (weight_le_fieldWeight k name t) _
      have ht := t.strays_le_weight (ss.head?.bind (·.position))
      have hts := fieldsStrays_le_weight k ss.tail names.tail ts
      omega
end

/-! ## Strays inside a value -/

mutual
/-- At a position of no type only the strays inside count. -/
theorem Tree.strays_none_le (type : Option Position) : ∀ t : Tree, t.strays none ≤ t.strays type
  | .list items => itemsStrays_none_le (itemType? type) items
  | .node k fields => by
      simp only [Tree.strays, isStray_none, Bool.toNat_false]
      omega
  | .absent | .bool _ | .int _ | .float _ | .str _ => Nat.le_refl _

theorem itemsStrays_none_le (type : Option Position) : ∀ ts : List Tree,
    itemsStrays none ts ≤ itemsStrays type ts
  | [] => Nat.le_refl 0
  | t :: ts => Nat.add_le_add (t.strays_none_le type) (itemsStrays_none_le type ts)
end

/-- A node that stands where it may has no strays but those inside. -/
theorem strays_of_takes {type : Option Position} (htype : Exclusive type) {k : Kind}
    {fields : List Tree} (h : type.any (·.required.takes k) = true) :
    (Tree.node k fields).strays type = (Tree.node k fields).strays none := by
  rw [Tree.strays, Tree.strays, isStray_of_takes htype h, isStray_none]

theorem strays_of_holds_item {t : Position} (ht : isItemType t = true)
    (hex : isExclusive t = true) {v : Tree} (h : t.holds id v = true) :
    v.strays (some t) = v.strays none := by
  rw [holds_item ht] at h
  cases v with
  | node k fields => exact strays_of_takes (by simpa [Exclusive] using hex) (by simpa using h)
  | list items => cases h
  | _ => rfl

/-- What inhabits a position has no strays but those inside. -/
theorem strays_of_holds {t : Position} (ht : isPlainType t = true) (hex : isExclusive t = true)
    {v : Tree} (h : t.holds id v = true) : v.strays (some t) = v.strays none := by
  obtain ⟨t', rfl, ht'⟩ | hitem := plain_cases ht
  · cases v with
    | list items =>
      have hitems : ∀ vs : List Tree, (∀ v ∈ vs, t'.holds id v = true) →
          itemsStrays (some t') vs = itemsStrays none vs := by
        intro vs hvs
        induction vs with
        | nil => rfl
        | cons v vs ih =>
          rw [itemsStrays, itemsStrays, strays_of_holds_item ht' hex (hvs v List.mem_cons_self),
            ih fun w hw => hvs w (List.mem_cons_of_mem _ hw)]
      exact hitems items (by simpa [PositionType.holds] using h)
    | node k fields => cases h
    | _ => rfl
  · exact strays_of_holds_item hitem hex h

/-- A value that a field admits has no strays but those inside. -/
theorem strays_of_admits {k : Kind} {s : Slot} (hs : s ∈ k.slots) {v : Tree}
    (h : s.type.admits v = true) : v.strays s.position = v.strays none := by
  cases hp : s.position with
  | none => rfl
  | some t =>
    have hplain := isPlainSlot_of_mem hs
    rw [isPlainSlot, hp] at hplain
    rw [admits_eq_holds hs hp] at h
    exact strays_of_holds hplain (exclusive_slot hs t hp) h

/-- The number of strays inside of values, all together. -/
def inside (ts : List Tree) : Nat := (ts.map (·.strays none)).sum

@[simp] theorem inside_nil : inside [] = 0 := rfl

@[simp] theorem inside_cons (t : Tree) (ts : List Tree) :
    inside (t :: ts) = t.strays none + inside ts := rfl

theorem strays_list (items : List Tree) : (Tree.list items).strays none = inside items := by
  show itemsStrays none items = inside items
  induction items with
  | nil => rfl
  | cons t ts ih => rw [itemsStrays, ih, inside_cons]

theorem inside_append (xs ys : List Tree) : inside (xs ++ ys) = inside xs + inside ys := by
  simp [inside]

theorem strays_le_inside {t : Tree} {ts : List Tree} (h : t ∈ ts) : t.strays none ≤ inside ts :=
  List.single_le_sum (by simp) _ (List.mem_map_of_mem h)

theorem inside_le_fieldsStrays (ss : List Slot) (ts : List Tree) :
    inside ts ≤ fieldsStrays ss ts := by
  induction ts generalizing ss with
  | nil => simp [inside]
  | cons t ts ih =>
    cases ss with
    | nil => exact Nat.add_le_add_left (ih []) _
    | cons s ss => exact Nat.add_le_add (t.strays_none_le _) (ih ss)

/-- Values that are checked are admitted by their slots. -/
theorem admits_of_checkValues {k : Kind} {ss : List Slot} {vs : List Tree}
    (h : Node.checkValues k ss vs = .ok ()) :
    List.Forall₂ (fun s v => s.type.admits v = true) ss vs := by
  induction ss generalizing vs with
  | nil =>
    cases vs with
    | nil => exact .nil
    | cons v vs => cases h
  | cons s ss ih =>
    cases vs with
    | nil => cases h
    | cons v vs =>
      rw [Node.checkValues] at h
      split at h
      · rename_i hv
        exact .cons hv (ih h)
      · cases h

/-- Values that their slots admit are no strays. -/
theorem fieldsStrays_of_admits {k : Kind} {ss : List Slot} (hss : ∀ s ∈ ss, s ∈ k.slots)
    {vs : List Tree} (h : List.Forall₂ (fun s v => s.type.admits v = true) ss vs) :
    fieldsStrays ss vs = inside vs := by
  induction h with
  | nil => rfl
  | cons hv _ ih =>
    rw [fieldsStrays, strays_of_admits (hss _ List.mem_cons_self) hv,
      ih fun s' hs' => hss s' (List.mem_cons_of_mem _ hs'), inside_cons]

/-- A node that has been made has fields that are admitted. -/
theorem newNode_eq_ok {k : Kind} {vs : List Tree} {v : Tree} (h : newNode k vs = .ok v) :
    v = .node k vs ∧ List.Forall₂ (fun s v => s.type.admits v = true) k.slots vs := by
  rw [newNode, Node.make] at h
  cases hcheck : Node.checkValues k k.slots vs with
  | error e => rw [hcheck] at h; cases h
  | ok _ =>
    rw [hcheck] at h
    cases h
    exact ⟨rfl, admits_of_checkValues hcheck⟩

/-- A node that has been made has the strays inside of its fields. -/
theorem strays_newNode {k : Kind} {vs : List Tree} {v : Tree} (h : newNode k vs = .ok v) :
    v.strays none = inside vs := by
  obtain ⟨rfl, hadmits⟩ := newNode_eq_ok h
  rw [Tree.strays, isStray_none, fieldsStrays_of_admits (fun _ hs => hs) hadmits]
  exact Nat.zero_add _

theorem inside_le_strays (k : Kind) (fields : List Tree) :
    inside fields ≤ (Tree.node k fields).strays none := by
  rw [Tree.strays, isStray_none]
  exact (inside_le_fieldsStrays ..).trans (Nat.le_add_left ..)

/-! ## Frames -/

theorem itemsStrays_middle (type : Option Position) (before : List Tree) (t : Tree)
    (after : List Tree) : itemsStrays type (before ++ t :: after)
      = t.strays type + itemsStrays type (before ++ after) := by
  induction before with
  | nil => rfl
  | cons b before ih =>
    simp only [List.cons_append, itemsStrays, ih]
    omega

theorem fieldsStrays_middle {slots : List Slot} {before after : List Tree} (t : Tree) {s : Slot}
    (hs : slots[before.length]? = some s) : fieldsStrays slots (before ++ t :: after)
      = t.strays s.position + fieldsStrays slots (before ++ .absent :: after) := by
  induction before generalizing slots with
  | nil =>
    cases slots with
    | nil => cases hs
    | cons s' slots =>
      cases hs
      simp [fieldsStrays, Tree.strays]
  | cons b before ih =>
    cases slots with
    | nil => cases hs
    | cons s' slots =>
      simp only [List.cons_append, fieldsStrays, ih hs]
      omega

/-- The strays of a frame are those of what is in its hole and some more. -/
theorem strays_plug (type : Option Position) {f : Frame} (hf : f.isPosition = true) :
    ∃ m, ∀ t, (f.plug t).strays type = t.strays (f.holeType false type) + m := by
  cases f with
  | item before after =>
    exact ⟨_, fun t => itemsStrays_middle (itemType? type) before t after⟩
  | field k before after =>
    obtain ⟨s, p, hs, hp⟩ := Frame.slot?_of_isPosition hf
    refine ⟨(isStray type k).toNat + fieldsStrays k.slots (before ++ .absent :: after),
      fun t => ?_⟩
    rw [Frame.plug, Tree.strays, fieldsStrays_middle t hs, Frame.holeType, Frame.slot?, hs,
      Option.bind_some, slotPosition_strict]
    omega

theorem strays_plugAll (type : Option Position) {fs : List Frame} (hfs : Positions fs) :
    ∃ m, ∀ t, (plugAll fs t).strays type = t.strays (holeTypeOf false type fs) + m := by
  induction fs with
  | nil => exact ⟨0, fun t => rfl⟩
  | cons f fs ih =>
    obtain ⟨m, hm⟩ := ih hfs.tail
    obtain ⟨n, hn⟩ := strays_plug (holeTypeOf false type fs) (hfs f List.mem_cons_self)
    refine ⟨n + m, fun t => ?_⟩
    rw [plugAll_cons, hm, hn, holeTypeOf, Nat.add_assoc]

end Whittle
