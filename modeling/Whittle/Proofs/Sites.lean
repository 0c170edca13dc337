import Whittle.Proofs.Frames

/-!
# Sites as frames

The positions that are visited in a tree are the ways to see it as frames around a value. The
frames give all that a visit knows: the path, the types of the positions down to it, and the
nodes that stand around it. So they give the surroundings of the site: its path, its type, the
owner of its field and the positions that enclose it.
-/

namespace Whittle

open Grammar Whittle.Language

namespace Pending

/-! ## Parts -/

/-- The position in the hole of a frame that stands at a position. -/
def hole (p : Pending) (f : Frame) (u : Tree) : Pending :=
  p.enter f.occupant f.step (f.holeType false p.type) u

@[simp] theorem value_enter (p : Pending) (occupant : Option Kind) (step : Step)
    (type : Option Position) (v : Tree) : (p.enter occupant step type v).value = v := rfl

@[simp] theorem value_hole (p : Pending) (f : Frame) (u : Tree) : (p.hole f u).value = u := rfl

theorem mem_items {p x : Pending} {ts : List Tree} : ∀ {i : Nat},
    x ∈ p.items i ts ↔ ∃ before t after, ts = before ++ t :: after ∧
      x = p.enter none (.index (i + before.length : Nat)) (itemType? p.type) t := by
  induction ts with
  | nil => simp [items]
  | cons u us ih =>
    intro i
    rw [items, List.mem_append, List.mem_singleton, ih]
    constructor
    · rintro (⟨before, t, after, rfl, rfl⟩ | rfl)
      · refine ⟨u :: before, t, after, rfl, ?_⟩
        rw [List.length_cons, Nat.add_comm before.length, ← Nat.add_assoc]
      · exact ⟨[], u, us, rfl, rfl⟩
    · rintro ⟨_ | ⟨b, before⟩, t, after, heq, rfl⟩
      · cases heq
        exact .inr rfl
      · cases heq
        refine .inl ⟨before, t, after, rfl, ?_⟩
        rw [List.length_cons, Nat.add_comm before.length, ← Nat.add_assoc]

theorem mem_fields {p x : Pending} {k : Kind} {slots : List Slot} {ts : List Tree} :
    x ∈ p.fields k slots ts ↔ ∃ before t after slot type, ts = before ++ t :: after ∧
      slots[before.length]? = some slot ∧ slot.position = some type ∧
      x = p.enter (some k) (.field slot.name) (some type) t := by
  induction slots generalizing ts with
  | nil => simp [fields]
  | cons slot slots ih =>
    cases ts with
    | nil => simp [fields]
    | cons u us =>
      have hrest : x ∈ p.fields k slots us ↔
          ∃ before t after slot' type, u :: us = (u :: before) ++ t :: after ∧
            (slot :: slots)[(u :: before).length]? = some slot' ∧
            slot'.position = some type ∧
            x = p.enter (some k) (.field slot'.name) (some type) t := by
        simp [ih]
      rw [fields]
      constructor
      · intro h
        split at h
        · rename_i type hp
          rcases List.mem_cons.1 h with rfl | h
          · exact ⟨[], u, us, slot, type, rfl, rfl, hp, rfl⟩
          · obtain ⟨before, t, after, slot', type', h⟩ := hrest.1 h
            exact ⟨u :: before, t, after, slot', type', h⟩
        · obtain ⟨before, t, after, slot', type', h⟩ := hrest.1 h
          exact ⟨u :: before, t, after, slot', type', h⟩
      · rintro ⟨_ | ⟨b, before⟩, t, after, slot', type, heq, hs, hp, h⟩
        · cases heq
          cases hs
          simp only [hp]
          exact List.mem_cons.2 (.inl h)
        · cases heq
          have hmem := hrest.2 ⟨before, t, after, slot', type, rfl, hs, hp, h⟩
          split
          · exact List.mem_cons_of_mem _ hmem
          · exact hmem

theorem hole_field (p : Pending) {k : Kind} {before : List Tree} (after : List Tree)
    {slot : Slot} {type : Position} (hs : k.slots[before.length]? = some slot)
    (hp : slot.position = some type) (u : Tree) :
    p.hole (.field k before after) u = p.enter (some k) (.field slot.name) (some type) u := by
  simp [hole, Frame.occupant, Frame.step, Frame.holeType, Frame.slot?, hs, slotPosition_strict,
    hp]

/-- The parts of a position are what stands in the holes of the frames that its value is. -/
theorem mem_parts {p x : Pending} :
    x ∈ p.parts ↔ ∃ f u, f.isPosition = true ∧ f.plug u = p.value ∧ x = p.hole f u := by
  unfold parts
  split
  · rename_i ts hvalue
    rw [hvalue, mem_items]
    constructor
    · rintro ⟨before, u, after, rfl, rfl⟩
      refine ⟨.item before after, u, rfl, rfl, ?_⟩
      rw [Nat.zero_add]
      rfl
    · rintro ⟨f, u, hf, hplug, rfl⟩
      cases f with
      | field l before after => cases hplug
      | item before after =>
        cases hplug
        refine ⟨before, u, after, rfl, ?_⟩
        rw [Nat.zero_add]
        rfl
  · rename_i k ts hvalue
    rw [hvalue, mem_fields]
    constructor
    · rintro ⟨before, u, after, slot, type, rfl, hs, hp, rfl⟩
      refine ⟨.field k before after, u, ?_, rfl, (p.hole_field after hs hp u).symm⟩
      simp [Frame.isPosition, Frame.slot?, hs, hp]
    · rintro ⟨f, u, hf, hplug, rfl⟩
      cases f with
      | item before after => cases hplug
      | field l before after =>
        cases hplug
        obtain ⟨slot, type, hs, hp⟩ := Frame.slot?_of_isPosition hf
        exact ⟨before, u, after, slot, type, rfl, hs, hp, p.hole_field after hs hp u⟩
  · rename_i hlist hnode
    refine iff_of_false (List.not_mem_nil) ?_
    rintro ⟨f, u, -, hplug, -⟩
    cases f with
    | field k before after => exact hnode _ _ hplug.symm
    | item before after => exact hlist _ hplug.symm

/-! ## Fuel -/

theorem extent_items (p : Pending) (ts : List Tree) (i : Nat) :
    ((p.items i ts).map (·.value.extent)).sum = extentAll ts := by
  induction ts generalizing i with
  | nil => rfl
  | cons t ts ih => simp [items, extentAll, ih, Nat.add_comm]

theorem extent_fields_le (p : Pending) (k : Kind) (slots : List Slot) (ts : List Tree) :
    ((p.fields k slots ts).map (·.value.extent)).sum ≤ extentAll ts := by
  induction slots generalizing ts with
  | nil => simp [fields]
  | cons slot slots ih =>
    cases ts with
    | nil => simp [fields]
    | cons t ts =>
      have hrest := ih ts
      rw [fields]
      split
      · simp only [List.map_cons, List.sum_cons, value_enter, extentAll]
        omega
      · rw [extentAll]
        omega

/-- The parts of a value are smaller than the value, all together. -/
theorem extent_parts_lt (p : Pending) :
    (p.parts.map (·.value.extent)).sum < p.value.extent := by
  unfold parts
  split
  · rename_i ts hvalue
    rw [hvalue, Tree.extent, extent_items]
    omega
  · rename_i k ts hvalue
    have hle := p.extent_fields_le k k.slots ts
    rw [hvalue, Tree.extent]
    omega
  · rename_i hlist hnode
    cases hvalue : p.value with
    | list ts => exact absurd hvalue (hlist ts)
    | node k ts => exact absurd hvalue (hnode k ts)
    | _ => simp [Tree.extent]

end Pending

/-! ## Visits -/

/-- Enough fuel to visit all positions that can be reached from a queue. -/
def enough (queue : List Pending) : Nat := (queue.map (·.value.extent)).sum

theorem enough_append (queue rest : List Pending) :
    enough (queue ++ rest) = enough queue + enough rest := by
  simp [enough]

theorem enough_cons (p : Pending) (queue : List Pending) :
    enough (p :: queue) = p.value.extent + enough queue := by
  simp [enough]

/-- What is visited are the positions in the queue and all those inside. -/
theorem mem_visits {fuel : Nat} {queue : List Pending} (h : enough queue ≤ fuel) {x : Pending} :
    x ∈ visits fuel queue ↔
      ∃ p ∈ queue, Relation.ReflTransGen (fun a b => b ∈ a.parts) p x := by
  induction fuel generalizing queue with
  | zero =>
    cases queue with
    | nil => simp [visits]
    | cons p queue =>
      have hlt := p.extent_parts_lt
      rw [enough_cons] at h
      omega
  | succ fuel ih =>
    cases queue with
    | nil => simp [visits]
    | cons p queue =>
      have hlt := p.extent_parts_lt
      have hrest : enough (queue ++ p.parts) ≤ fuel := by
        rw [enough_cons] at h
        rw [enough_append]
        unfold enough at *
        omega
      rw [visits, List.mem_cons, ih hrest]
      constructor
      · rintro (rfl | ⟨q, hq, hreach⟩)
        · exact ⟨x, List.mem_cons_self, .refl⟩
        · rcases List.mem_append.1 hq with hq | hq
          · exact ⟨q, List.mem_cons_of_mem _ hq, hreach⟩
          · exact ⟨p, List.mem_cons_self, .head hq hreach⟩
      · rintro ⟨q, hq, hreach⟩
        rcases List.mem_cons.1 hq with rfl | hq
        · rcases hreach.cases_head with rfl | ⟨r, hr, hreach⟩
          · exact .inl rfl
          · exact .inr ⟨r, List.mem_append_right _ hr, hreach⟩
        · exact .inr ⟨q, List.mem_append_left _ hq, hreach⟩

/-! ## What a visit knows -/

/-- The types of the positions from the root down to the hole. -/
def typesOf (type : Option Position) : List Frame → List (Option Position)
  | [] => [type]
  | f :: fs => typesOf type fs ++ [holeTypeOf false type (f :: fs)]

/-- The nodes that the frames are, the outermost first. -/
def occupantsOf : List Frame → List (Option Kind)
  | [] => []
  | f :: fs => occupantsOf fs ++ [f.occupant]

/-- The position that the hole of frames is. -/
def pendingOf (type : Option Position) (fs : List Frame) (w : Tree) : Pending :=
  ⟨pathOf fs, typesOf type fs, occupantsOf fs, w⟩

theorem length_typesOf (type : Option Position) (fs : List Frame) :
    (typesOf type fs).length = fs.length + 1 := by
  induction fs with
  | nil => rfl
  | cons f fs ih => rw [typesOf, List.length_append, ih]; rfl

theorem length_occupantsOf (fs : List Frame) : (occupantsOf fs).length = fs.length := by
  induction fs with
  | nil => rfl
  | cons f fs ih => rw [occupantsOf, List.length_append, ih]; rfl

theorem length_pathOf (fs : List Frame) : (pathOf fs).length = fs.length := by
  induction fs with
  | nil => rfl
  | cons f fs ih => rw [pathOf, List.length_append, ih]; rfl

theorem type_pendingOf (type : Option Position) (fs : List Frame) (w : Tree) :
    (pendingOf type fs w).type = holeTypeOf false type fs := by
  cases fs with
  | nil => rfl
  | cons f fs => simp [Pending.type, pendingOf, typesOf]

theorem owner_pendingOf (type : Option Position) (fs : List Frame) (w : Tree) :
    (pendingOf type fs w).owner = fs.head?.bind Frame.occupant := by
  cases fs with
  | nil => rfl
  | cons f fs => simp [Pending.owner, pendingOf, occupantsOf]

theorem hole_pendingOf (type : Option Position) (fs : List Frame) (v : Tree) (f : Frame)
    (u : Tree) : (pendingOf type fs v).hole f u = pendingOf type (f :: fs) u := by
  rw [Pending.hole, type_pendingOf]
  rfl

/-- The positions inside a value are in the holes of the frames that it is. -/
theorem reaches_pendingOf {type : Option Position} {ps : List Frame} {t : Tree} {x : Pending} :
    Relation.ReflTransGen (fun a b => b ∈ a.parts) (pendingOf type ps t) x ↔
      ∃ fs w, Positions fs ∧ plugAll fs w = t ∧ x = pendingOf type (fs ++ ps) w := by
  constructor
  · intro h
    induction h with
    | refl => exact ⟨[], t, by simp [Positions], rfl, rfl⟩
    | tail _ hstep ih =>
      obtain ⟨fs, w, hfs, rfl, rfl⟩ := ih
      obtain ⟨f, u, hf, rfl, rfl⟩ := Pending.mem_parts.1 hstep
      exact ⟨f :: fs, u, .cons hf hfs, rfl, hole_pendingOf ..⟩
  · rintro ⟨fs, w, hfs, rfl, rfl⟩
    induction fs generalizing w with
    | nil => exact .refl
    | cons f fs ih =>
      refine .tail (ih (f.plug w) hfs.tail) (Pending.mem_parts.2 ?_)
      exact ⟨f, w, hfs f List.mem_cons_self, rfl, (hole_pendingOf ..).symm⟩

/-- What is visited in a tree are the holes of the frames that it is. -/
theorem mem_visits_root {type : Option Position} {t : Tree} {x : Pending} :
    x ∈ visits t.extent [.root type t] ↔
      ∃ fs w, Positions fs ∧ plugAll fs w = t ∧ x = pendingOf type fs w := by
  rw [mem_visits (by simp [enough, Pending.root])]
  have hreaches := @reaches_pendingOf type [] t x
  simp only [List.append_nil] at hreaches
  rw [← hreaches]
  constructor
  · rintro ⟨p, hp, h⟩
    obtain rfl := List.mem_singleton.1 hp
    exact h
  · intro h
    exact ⟨_, List.mem_singleton_self _, h⟩

/-! ## Surroundings -/

/-- The enclosing positions of the hole, if the outermost frame is the root. -/
def enclosingOf (root : Option Position) : List Frame → List Enclosing
  | [] => []
  | f :: fs =>
    if fs.isEmpty then []
    else ⟨pathOf fs, holeTypeOf false root fs, f.occupant⟩ :: enclosingOf root fs

theorem getElem?_typesOf (type : Option Position) (fs : List Frame) :
    (typesOf type fs)[fs.length]? = some (holeTypeOf false type fs) := by
  cases fs with
  | nil => rfl
  | cons f fs => simp [typesOf, length_typesOf]

/-- The types, the occupants and the steps of the path go together: the one position more that
encloses the hole of one frame more is where that frame stands. -/
theorem enclosing_pendingOf (type : Option Position) (fs : List Frame) (w : Tree) :
    (pendingOf type fs w).enclosing = enclosingOf type fs := by
  induction fs generalizing w with
  | nil => rfl
  | cons f fs ih =>
    cases hfs : fs with
    | nil => rfl
    | cons g gs =>
      have hlength : (pendingOf type (f :: fs) w).types.length - 2 = gs.length + 1 := by
        simp [pendingOf, length_typesOf, hfs]
      have hlength' : (pendingOf type fs w).types.length - 2 = gs.length := by
        simp [pendingOf, length_typesOf, hfs]
      have hn : 1 + 1 * gs.length = fs.length := by
        rw [hfs, List.length_cons]
        omega
      rw [← hfs, enclosingOf, if_neg (by simp [hfs]), ← ih w, Pending.enclosing,
        Pending.enclosing, hlength, hlength', List.range'_concat, List.reverse_append, hn,
        List.map_append]
      have hinner : Enclosing.mk ((pathOf (f :: fs)).take fs.length)
          ((typesOf type (f :: fs))[fs.length]?).join
          ((occupantsOf (f :: fs))[fs.length]?).join
          = ⟨pathOf fs, holeTypeOf false type fs, f.occupant⟩ := by
        have hpath : (pathOf (f :: fs)).take fs.length = pathOf fs := by
          rw [pathOf, ← length_pathOf fs, List.take_left]
        have htype : (typesOf type (f :: fs))[fs.length]? = some (holeTypeOf false type fs) := by
          rw [typesOf, List.getElem?_append_left (by rw [length_typesOf]; omega),
            getElem?_typesOf]
        have hoccupant : (occupantsOf (f :: fs))[fs.length]? = some f.occupant := by
          rw [occupantsOf, ← length_occupantsOf fs, List.getElem?_concat_length]
        rw [hpath, htype, hoccupant]
        rfl
      have houter : ∀ i ∈ (List.range' 1 gs.length).reverse,
          Enclosing.mk ((pathOf (f :: fs)).take i) ((typesOf type (f :: fs))[i]?).join
            ((occupantsOf (f :: fs))[i]?).join
          = ⟨(pathOf fs).take i, ((typesOf type fs)[i]?).join,
            ((occupantsOf fs)[i]?).join⟩ := by
        intro i hi
        rw [List.mem_reverse, List.mem_range'_1] at hi
        rw [pathOf, typesOf, occupantsOf, List.take_append_of_le_length,
          List.getElem?_append_left, List.getElem?_append_left]
        · rw [length_occupantsOf]
          omega
        · rw [length_typesOf]
          omega
        · rw [length_pathOf]
          omega
      exact congr (congrArg _ (congrArg (fun e => [e]) hinner)) (List.map_congr_left houter)

theorem site_pendingOf (type : Option Position) (fs : List Frame) (w : Tree) :
    (pendingOf type fs w).site = ⟨⟨pathOf fs, holeTypeOf false type fs,
      fs.head?.bind Frame.occupant, enclosingOf type fs⟩, w⟩ := by
  rw [Pending.site, type_pendingOf, owner_pendingOf, enclosing_pendingOf]
  rfl

/-- The sites of a tree with all that an edit has to know about them. -/
theorem mem_sites_iff {type : Option Position} {t : Tree} {site : Site} :
    site ∈ sites type t ↔ ∃ fs w, Positions fs ∧ plugAll fs w = t ∧ w ≠ .absent ∧
      site = ⟨⟨pathOf fs, holeTypeOf false type fs, fs.head?.bind Frame.occupant,
        enclosingOf type fs⟩, w⟩ := by
  have habsent : ∀ w : Tree, (!w.isAbsent) = true ↔ w ≠ .absent := by
    intro w
    cases w <;> simp [Tree.isAbsent]
  simp only [sites, List.mem_map, List.mem_filter, mem_visits_root]
  constructor
  · rintro ⟨x, ⟨⟨fs, w, hfs, rfl, rfl⟩, hw⟩, rfl⟩
    exact ⟨fs, w, hfs, rfl, (habsent w).1 hw, site_pendingOf type fs w⟩
  · rintro ⟨fs, w, hfs, rfl, hw, rfl⟩
    exact ⟨pendingOf type fs w, ⟨⟨fs, w, hfs, rfl, rfl⟩, (habsent w).2 hw⟩,
      site_pendingOf type fs w⟩

end Whittle
