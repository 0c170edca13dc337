import Whittle.Proofs.Lens
import Whittle.Proofs.Typing

/-!
# Frames

What is around a part of a tree, one frame for each step outwards, the innermost frame first:
a node with a hole in one of its fields, or a list with a hole among its items. The frames say
where the part is and which type its position has; what else fits there may take its place.
-/

namespace Whittle

open Grammar Whittle.Language

/-- A node or a list with a hole. -/
inductive Frame where
  | field (kind : Kind) (before after : List Tree)
  | item (before after : List Tree)

namespace Frame

/-- The frame with a value in its hole. -/
def plug : Frame → Tree → Tree
  | field k before after, t => .node k (before ++ t :: after)
  | item before after, t => .list (before ++ t :: after)

/-- The kind of the node that the frame is. -/
def occupant : Frame → Option Kind
  | field k _ _ => some k
  | item _ _ => none

/-- The slot that the hole of a node is. -/
def slot? : Frame → Option Slot
  | field k before _ => k.slots[before.length]?
  | item _ _ => none

/-- The step from the frame to its hole. -/
def step : Frame → Step
  | field k before after => .field (((field k before after).slot?.map (·.name)).getD "")
  | item before _ => .index before.length

/-- Whether the hole can hold nodes. -/
def isPosition : Frame → Bool
  | field k before after => ((field k before after).slot?.bind (·.position)).isSome
  | item _ _ => true

/-- The type of the hole, if the frame stands at a position of type `type`. -/
def holeType (loose : Bool) (f : Frame) (type : Option Position) : Option Position :=
  match f with
  | field k _ _ => f.slot?.bind (slotPosition loose k)
  | item _ _ => itemType? type

end Frame

/-- The frames with a value in the hole of the innermost one. -/
def plugAll : List Frame → Tree → Tree
  | [], t => t
  | f :: fs, t => plugAll fs (f.plug t)

/-- The path to the hole. -/
def pathOf : List Frame → Path
  | [] => []
  | f :: fs => pathOf fs ++ [f.step]

/-- The type of the hole, if the outermost frame stands at a position of type `root`. -/
def holeTypeOf (loose : Bool) (root : Option Position) : List Frame → Option Position
  | [] => root
  | f :: fs => f.holeType loose (holeTypeOf loose root fs)

/-- Whether all holes can hold nodes. -/
def Positions (fs : List Frame) : Prop := ∀ f ∈ fs, f.isPosition = true

@[simp] theorem plugAll_nil (t : Tree) : plugAll [] t = t := rfl

@[simp] theorem plugAll_cons (f : Frame) (fs : List Frame) (t : Tree) :
    plugAll (f :: fs) t = plugAll fs (f.plug t) := rfl

theorem plugAll_append (gs fs : List Frame) (t : Tree) :
    plugAll (gs ++ fs) t = plugAll fs (plugAll gs t) := by
  induction gs generalizing t with
  | nil => rfl
  | cons f gs ih => exact ih (f.plug t)

theorem plugAll_concat (gs : List Frame) (f : Frame) (t : Tree) :
    plugAll (gs ++ [f]) t = f.plug (plugAll gs t) := plugAll_append gs [f] t

theorem pathOf_append (gs fs : List Frame) : pathOf (gs ++ fs) = pathOf fs ++ pathOf gs := by
  induction gs with
  | nil => simp [pathOf]
  | cons f gs ih => simp [pathOf, ih]

theorem holeTypeOf_append (loose : Bool) (root : Option Position) (gs fs : List Frame) :
    holeTypeOf loose root (gs ++ fs) = holeTypeOf loose (holeTypeOf loose root fs) gs := by
  induction gs with
  | nil => rfl
  | cons f gs ih => simp [holeTypeOf, ih]

theorem Positions.append {gs fs : List Frame} (hgs : Positions gs) (hfs : Positions fs) :
    Positions (gs ++ fs) := by
  intro f hf
  exact (List.mem_append.1 hf).elim (hgs f) (hfs f)

theorem Positions.left {gs fs : List Frame} (h : Positions (gs ++ fs)) : Positions gs :=
  fun f hf => h f (List.mem_append_left _ hf)

theorem Positions.right {gs fs : List Frame} (h : Positions (gs ++ fs)) : Positions fs :=
  fun f hf => h f (List.mem_append_right _ hf)

theorem Positions.cons {f : Frame} {fs : List Frame} (hf : f.isPosition = true)
    (hfs : Positions fs) : Positions (f :: fs) := List.forall_mem_cons.2 ⟨hf, hfs⟩

theorem Positions.tail {f : Frame} {fs : List Frame} (h : Positions (f :: fs)) : Positions fs :=
  fun g hg => h g (List.mem_cons_of_mem _ hg)

theorem Frame.sizeOf_lt_plug (f : Frame) (t : Tree) : sizeOf t < sizeOf (f.plug t) := by
  cases f with
  | field k before after =>
    have : sizeOf t < sizeOf (before ++ t :: after) := List.sizeOf_lt_of_mem (by simp)
    simp only [plug, Tree.node.sizeOf_spec]
    omega
  | item before after =>
    have : sizeOf t < sizeOf (before ++ t :: after) := List.sizeOf_lt_of_mem (by simp)
    simp only [plug, Tree.list.sizeOf_spec]
    omega

/-! ## Reading and replacing -/

theorem fieldNames_nodup (k : Kind) : k.fieldNames.Nodup := by
  have h : Kind.all.all (fun k => decide k.fieldNames.Nodup) = true := by decide
  exact of_decide_eq_true (Kind.forall_of_all h k)

/-- A field is found by the name of its slot. -/
theorem idxOf?_fieldNames {k : Kind} {i : Nat} {s : Slot} (hs : k.slots[i]? = some s) :
    k.fieldNames.idxOf? s.name = some i := by
  have hi : k.fieldNames[i]? = some s.name := by simp [Kind.fieldNames, hs]
  obtain ⟨hlt, hname⟩ := List.getElem?_eq_some_iff.1 hi
  rw [List.idxOf?_eq_some_iff]
  refine ⟨hlt, by simp [hname], ?_⟩
  intro j hj
  have hne := (List.nodup_iff_injective_get.1 (fieldNames_nodup k)).ne
    (show (⟨j, hj.trans hlt⟩ : Fin k.fieldNames.length) ≠ ⟨i, hlt⟩ by simp; omega)
  simpa [hname] using hne

theorem Frame.slot?_of_isPosition {k : Kind} {before after : List Tree}
    (h : (Frame.field k before after).isPosition = true) :
    ∃ s type, k.slots[before.length]? = some s ∧ s.position = some type := by
  simp only [isPosition, slot?, Option.isSome_iff_exists, Option.bind_eq_some_iff] at h
  obtain ⟨type, s, hs, hp⟩ := h
  exact ⟨s, type, hs, hp⟩

theorem Frame.place_plug {f : Frame} (hf : f.isPosition = true) (t : Tree) :
    ∃ i, (f.plug t).place f.step = .ok i ∧ (f.plug t).parts[i]? = some t ∧
      ∀ v, (f.plug t).withParts ((f.plug t).parts.set i v) = f.plug v := by
  cases f with
  | field k before after =>
    obtain ⟨s, -, hs, -⟩ := slot?_of_isPosition hf
    refine ⟨before.length, ?_, by simp [plug, Tree.parts], by simp [plug, Tree.parts,
      Tree.withParts]⟩
    simp [plug, step, slot?, hs, Tree.place, idxOf?_fieldNames hs]
  | item before after =>
    refine ⟨before.length, ?_, by simp [plug, Tree.parts], by simp [plug, Tree.parts,
      Tree.withParts]⟩
    simp only [plug, step, Tree.place, List.length_append, List.length_cons]
    rw [if_pos (by omega)]
    simp

theorem Frame.childAt_plug {f : Frame} (hf : f.isPosition = true) (t : Tree) :
    (f.plug t).childAt f.step = .ok t := by
  obtain ⟨i, hi, ht, -⟩ := place_plug hf t
  exact Tree.childAt_eq_ok.2 ⟨i, hi, ht⟩

theorem Frame.setChild_plug {f : Frame} (hf : f.isPosition = true) (t v : Tree) :
    (f.plug t).setChild f.step v = f.plug v := by
  obtain ⟨i, hi, -, hset⟩ := place_plug hf t
  rw [Tree.setChild_of_place hi, hset]

/-- The path of the frames leads to what is in the hole. -/
theorem get_plugAll {fs : List Frame} (hfs : Positions fs) (t : Tree) :
    (plugAll fs t).get (pathOf fs) = .ok t := by
  induction fs generalizing t with
  | nil => rfl
  | cons f fs ih =>
    have hf := hfs f List.mem_cons_self
    have hrest := ih hfs.tail (f.plug t)
    exact Tree.get_append hrest (Tree.get_cons_eq_ok.2 ⟨t, Frame.childAt_plug hf t, rfl⟩)

/-- To replace at the path of the frames is to put something else into the hole. -/
theorem replace_plugAll {fs : List Frame} (hfs : Positions fs) (t v : Tree) :
    (plugAll fs t).replace (pathOf fs) v = .ok (plugAll fs v) := by
  induction fs generalizing t v with
  | nil => rfl
  | cons f fs ih =>
    have hf := hfs f List.mem_cons_self
    refine Tree.replace_append (get_plugAll hfs.tail (f.plug t)) ?_
      (ih hfs.tail (f.plug t) (f.plug v))
    exact Tree.replace_cons_eq_ok.2
      ⟨t, v, Frame.childAt_plug hf t, rfl, (Frame.setChild_plug hf t v).symm⟩

/-! ## What fits a hole -/

/-- Whether a value fits where the type is the given one; where there is no type, at the root
of everything, a node fits whose fields do. -/
def FitsAt (loose : Bool) : Option Position → Tree → Prop
  | some type, t => t.Fits loose type
  | none, t => t.IsFit loose

variable {loose : Bool}

theorem FitsAt.isFit {type : Option Position} {k : Kind} {fields : List Tree}
    (h : FitsAt loose type (.node k fields)) : FieldsFit loose k k.slots fields := by
  cases type with
  | none => exact h
  | some type => exact h.2

/-- Where a node fits, so does another one of its kind whose fields fit. -/
theorem FitsAt.refill {type : Option Position} {k : Kind} {us vs : List Tree}
    (h : FitsAt loose type (.node k us)) (hvs : FieldsFit loose k k.slots vs) :
    FitsAt loose type (.node k vs) := by
  cases type with
  | none => exact hvs
  | some type => exact ⟨h.1, hvs⟩

theorem FitsAt.items {type : Option Position} {items : List Tree}
    (h : FitsAt loose type (.list items)) :
    ∃ t, type = some (.list t) ∧ ∀ v ∈ items, v.Fits loose t := by
  cases type with
  | none => exact h.elim
  | some type =>
    obtain ⟨t, rfl, hitems⟩ := h
    exact ⟨t, rfl, itemsFit_iff.1 hitems⟩

/-- What fits a position has parts that fit theirs. -/
theorem FitsAt.hole {type : Option Position} {f : Frame} {t : Tree}
    (h : FitsAt loose type (f.plug t)) (hf : f.isPosition = true) :
    ∃ type', f.holeType loose type = some type' ∧ t.Fits loose type' := by
  cases f with
  | field k before after =>
    obtain ⟨s, type', hs, hp⟩ := Frame.slot?_of_isPosition hf
    obtain ⟨s', hs', ht⟩ := (FitsAt.isFit h).middle
    cases hs.symm.trans hs'
    obtain ⟨type'', hp', -⟩ := @loosens_slotPosition loose k s type' hp
    refine ⟨type'', by simp [Frame.holeType, Frame.slot?, hs, hp'], ?_⟩
    simpa only [FitsSlot, hp'] using ht
  | item before after =>
    obtain ⟨t', rfl, hitems⟩ := FitsAt.items h
    exact ⟨t', rfl, hitems t (by simp)⟩

/-- What fits the hole of a frame may stand there. -/
theorem FitsAt.plug {type : Option Position} {type' : Position} {f : Frame} {t v : Tree}
    (h : FitsAt loose type (f.plug t)) (hf : f.isPosition = true)
    (hhole : f.holeType loose type = some type') (hv : v.Fits loose type') :
    FitsAt loose type (f.plug v) := by
  cases f with
  | field k before after =>
    obtain ⟨s, -, hs, -⟩ := Frame.slot?_of_isPosition hf
    have hslot : FitsSlot loose k s v := by
      simp only [Frame.holeType, Frame.slot?, hs, Option.bind_some] at hhole
      simpa only [FitsSlot, hhole] using hv
    have hfields := (FitsAt.isFit h).replace hs hslot
    cases type with
    | none => exact hfields
    | some type => exact ⟨h.1, hfields⟩
  | item before after =>
    obtain ⟨_, rfl, hitems⟩ := FitsAt.items h
    cases hhole
    refine ⟨_, rfl, itemsFit_iff.2 fun w hw => ?_⟩
    simp only [List.mem_append, List.mem_cons] at hw hitems
    rcases hw with hw | rfl | hw
    · exact hitems w (.inl hw)
    · exact hv
    · exact hitems w (.inr (.inr hw))

theorem FitsAt.holeAll {type : Option Position} {t : Tree} (fs : List Frame)
    (h : FitsAt loose type (plugAll fs t)) (hfs : Positions fs) :
    FitsAt loose (holeTypeOf loose type fs) t := by
  induction fs generalizing t with
  | nil => exact h
  | cons f fs ih =>
    obtain ⟨type', htype', ht⟩ := (ih h hfs.tail).hole (hfs f List.mem_cons_self)
    rw [holeTypeOf, htype']
    exact ht

theorem FitsAt.plugAll {type : Option Position} {t v : Tree} (fs : List Frame)
    (h : FitsAt loose type (plugAll fs t)) (hfs : Positions fs)
    (hv : FitsAt loose (holeTypeOf loose type fs) v) :
    FitsAt loose type (plugAll fs v) := by
  induction fs generalizing t v with
  | nil => exact hv
  | cons f fs ih =>
    have hf := hfs f List.mem_cons_self
    have haround := h.holeAll fs hfs.tail
    obtain ⟨type', htype', -⟩ := haround.hole hf
    rw [holeTypeOf, htype'] at hv
    exact ih h hfs.tail (haround.plug hf htype' hv)

/-! ## The types of holes -/

/-- Whether a test holds of the types of all positions of the grammar and of the items of
those that are lists. -/
def forallHoleTypes (loose : Bool) (Q : Position → Bool) : Bool :=
  Kind.all.all fun k => k.slots.all fun s =>
    match slotPosition loose k s with
    | some (.list t) => Q (.list t) && Q t
    | some t => Q t
    | none => true

theorem slotPosition_of_list {k : Kind} {s : Slot} {t : Position}
    (h : slotPosition loose k s = some (.list t)) : s.position = some (.list t) := by
  unfold slotPosition at h
  split at h
  · cases h
  · exact h

/-- The type of a hole is that of a field or of the items of one. -/
theorem holeTypeOf_cases {fs : List Frame} {t : Position}
    (h : holeTypeOf loose none fs = some t) : ∃ k, ∃ s ∈ k.slots,
      slotPosition loose k s = some t ∨ slotPosition loose k s = some (.list t) := by
  induction fs generalizing t with
  | nil => cases h
  | cons f fs ih =>
    cases f with
    | field k before after =>
      simp only [holeTypeOf, Frame.holeType, Frame.slot?, Option.bind_eq_some_iff] at h
      obtain ⟨s, hs, hp⟩ := h
      exact ⟨k, s, List.mem_of_getElem? hs, .inl hp⟩
    | item before after =>
      rw [holeTypeOf, Frame.holeType] at h
      unfold itemType? at h
      split at h
      · rename_i t' hlist
        cases h
        obtain ⟨k, s, hs, hp | hp⟩ := ih hlist
        · exact ⟨k, s, hs, .inr hp⟩
        · have hplain := isPlainSlot_of_mem hs
          simp [isPlainSlot, slotPosition_of_list hp, isPlainType, isItemType] at hplain
      · cases h

theorem holds_of_holeType {Q : Position → Bool} (hQ : forallHoleTypes loose Q = true)
    {fs : List Frame} {t : Position} (h : holeTypeOf loose none fs = some t) : Q t = true := by
  obtain ⟨k, s, hs, hp⟩ := holeTypeOf_cases h
  have hslot := List.all_eq_true.1 (Kind.forall_of_all hQ k) s hs
  rcases hp with hp | hp
  · rw [hp] at hslot
    cases t with
    | list t => exact (Bool.and_eq_true_iff.1 hslot).1
    | _ => exact hslot
  · rw [hp] at hslot
    exact (Bool.and_eq_true_iff.1 hslot).2

/-- The type of a hole is that of an item or of a list of items. -/
theorem isPlainType_holeTypeOf {fs : List Frame} {t : Position}
    (h : holeTypeOf false none fs = some t) : isPlainType t = true := by
  obtain ⟨k, s, hs, hp⟩ := holeTypeOf_cases h
  have hplain := isPlainSlot_of_mem hs
  rw [slotPosition_strict] at hp
  rcases hp with hp | hp
  · rwa [isPlainSlot, hp] at hplain
  · rw [isPlainSlot, hp] at hplain
    exact isPlainType_of_item hplain

theorem isLeaf_plug (f : Frame) (u : Tree) : (f.plug u).isLeaf = false := by
  cases f <;> rfl

/-- No item of a list is a list. -/
theorem isNode_of_item {fs : List Frame} {before after : List Tree} {u : Tree}
    (hfs : Positions fs) (h : FitsAt loose none (plugAll (.item before after :: fs) u))
    (hu : u.isLeaf = false) : u.isNode = true := by
  cases u with
  | node k fields => rfl
  | list items =>
    have hlist := h.holeAll fs hfs
    obtain ⟨type, htype, hitems⟩ := FitsAt.items hlist
    obtain ⟨type', rfl, -⟩ := hitems (.list items) (by simp)
    -- the type would be a list of lists
    obtain ⟨k, s, hs, hp | hp⟩ := holeTypeOf_cases htype
    · have hplain := isPlainSlot_of_mem hs
      simp [isPlainSlot, slotPosition_of_list hp, isPlainType, isItemType] at hplain
    · have hplain := isPlainSlot_of_mem hs
      simp [isPlainSlot, slotPosition_of_list hp, isPlainType, isItemType] at hplain
  | _ => cases hu

/-- The type of a hole and what it has become where fits are loose. -/
theorem loosens_holeTypeOf {fs : List Frame} (hfs : Positions fs) (t : Tree)
    (h : FitsAt true none (plugAll fs t)) (hne : fs ≠ []) :
    ∃ type type', holeTypeOf false none fs = some type ∧
      holeTypeOf true none fs = some type' ∧ Loosens type type' := by
  induction fs generalizing t with
  | nil => exact absurd rfl hne
  | cons f fs ih =>
    cases f with
    | field k before after =>
      obtain ⟨s, type, hs, hp⟩ := Frame.slot?_of_isPosition (hfs _ List.mem_cons_self)
      obtain ⟨type', hp', hloosens⟩ := @loosens_slotPosition true k s type hp
      exact ⟨type, type', by simp [holeTypeOf, Frame.holeType, Frame.slot?, hs,
        slotPosition_strict, hp], by simp [holeTypeOf, Frame.holeType, Frame.slot?, hs, hp'],
        hloosens⟩
    | item before after =>
      have hlist := h.holeAll fs hfs.tail
      cases fs with
      | nil => exact hlist.elim
      | cons g gs =>
        obtain ⟨type, type', htype, htype', hloosens⟩ := ih hfs.tail _ h (by simp)
        rw [htype'] at hlist
        obtain ⟨t', rfl, -⟩ := hlist
        obtain rfl | ⟨ms, -, h⟩ := hloosens
        · exact ⟨t', t', by rw [holeTypeOf, htype]; rfl, by rw [holeTypeOf, htype']; rfl,
            .inl rfl⟩
        · cases h

/-! ## What may hold a node -/

namespace Kind

/-- The fields, as kinds and indices, that satisfy a test on the type of their position. -/
def fieldsWhere (p : Position → Bool) : List (Kind × Nat) :=
  Kind.all.flatMap fun l => (l.slots.zipIdx.filter fun e => e.1.position.any p).map fun e =>
    (l, e.2)

/-- The fields that may hold a node of a kind. -/
def holders (k : Kind) : List (Kind × Nat) := fieldsWhere (·.required.takes k)

/-- The fields with lists that may hold a node of a kind. -/
def listHolders (k : Kind) : List (Kind × Nat) :=
  fieldsWhere fun p => (itemType? (some p)).any (·.required.takes k)

theorem mem_fieldsWhere {p : Position → Bool} {l : Kind} {i : Nat} {type : Position}
    (h : (l.slots[i]?).bind (·.position) = some type) (hp : p type = true) :
    (l, i) ∈ fieldsWhere p := by
  obtain ⟨s, hs, htype⟩ := Option.bind_eq_some_iff.1 h
  refine List.mem_flatMap.2 ⟨l, mem_all l, List.mem_map.2 ⟨(s, i), ?_, rfl⟩⟩
  rw [List.mem_filter, List.mem_zipIdx_iff_getElem?]
  exact ⟨hs, by simp [htype, hp]⟩

end Kind

/-- The first frames around a node: it is in a field, or an item of a list in a field. -/
theorem exists_holder {fs : List Frame} {k : Kind} {fields : List Tree} (hfs : Positions fs)
    (hne : fs ≠ []) (h : FitsAt false none (plugAll fs (.node k fields))) :
    (∃ l before after q, fs = .field l before after :: q ∧ (l, before.length) ∈ k.holders) ∨
    (∃ b a l before after q, fs = .item b a :: .field l before after :: q ∧
      (l, before.length) ∈ k.listHolders) := by
  obtain ⟨f, fs, rfl⟩ := List.exists_cons_of_ne_nil hne
  have hnode := h.holeAll (f :: fs) hfs
  cases f with
  | field l before after =>
    refine .inl ⟨l, before, after, fs, rfl, ?_⟩
    obtain ⟨s, type, hs, hp⟩ := Frame.slot?_of_isPosition (hfs _ List.mem_cons_self)
    have htype : holeTypeOf false none (.field l before after :: fs) = some type := by
      simp [holeTypeOf, Frame.holeType, Frame.slot?, hs, slotPosition_strict, hp]
    rw [htype] at hnode
    exact Kind.mem_fieldsWhere (by simp [hs, hp]) hnode.1
  | item b a =>
    have hlist := h.holeAll fs hfs.tail
    cases fs with
    | nil => exact hlist.elim
    | cons g fs =>
      cases g with
      | item b' a' => cases isNode_of_item hfs.tail.tail h rfl
      | field l before after =>
        refine .inr ⟨b, a, l, before, after, fs, rfl, ?_⟩
        obtain ⟨s, type, hs, hp⟩ := Frame.slot?_of_isPosition (hfs.tail _ List.mem_cons_self)
        have htype : holeTypeOf false none (.item b a :: .field l before after :: fs)
            = itemType? (some type) := by
          simp [holeTypeOf, Frame.holeType, Frame.slot?, hs, slotPosition_strict, hp]
        rw [htype] at hnode
        refine @Kind.mem_fieldsWhere _ l before.length type (by simp [hs, hp]) ?_
        cases hitem : itemType? (some type) with
        | none =>
          -- the list would not fit
          obtain ⟨t', htype', -⟩ := FitsAt.items hlist
          simp only [holeTypeOf, Frame.holeType, Frame.slot?, hs, Option.bind_some,
            slotPosition_strict, hp, Option.some.injEq] at htype'
          rw [htype'] at hitem
          cases hitem
        | some t' =>
          rw [hitem] at hnode
          exact hnode.1

end Whittle
