import Whittle.Proofs.Sites

/-!
# Levels of a queue

A queue is visited level by level: first what waits in it, then the parts of that in turn, then
the parts of those. Values that are absent have no parts, so they may be left out of every level.
-/

namespace Whittle

open Grammar Whittle.Language

/-- What is visited `n` levels below the positions of a queue. -/
def level (queue : List Pending) : Nat → List Pending
  | 0 => queue
  | n + 1 => (level queue n).flatMap Pending.parts

/-- The next level of a queue is the first one of its parts. -/
theorem level_succ (queue : List Pending) (n : Nat) :
    level queue (n + 1) = level (queue.flatMap Pending.parts) n := by
  induction n with
  | zero => rfl
  | succ n ih => rw [level, ih, level]

/-! ## Visits level by level -/

theorem enough_flatMap_parts (queue : List Pending) :
    enough (queue.flatMap Pending.parts) + queue.length ≤ enough queue := by
  induction queue with
  | nil => simp [enough]
  | cons p queue ih =>
    have hlt := p.extent_parts_lt
    rw [List.flatMap_cons, enough_append, enough_cons, List.length_cons]
    unfold enough at *
    omega

/-- All that waits is visited before any of its parts is. -/
theorem visits_append {cur next : List Pending} {fuel : Nat} (h : enough (cur ++ next) ≤ fuel) :
    visits fuel (cur ++ next)
      = cur ++ visits (fuel - cur.length) (next ++ cur.flatMap Pending.parts) := by
  induction cur generalizing next fuel with
  | nil => simp
  | cons p cur ih =>
    have hlt := p.extent_parts_lt
    cases fuel with
    | zero =>
      rw [List.cons_append, enough_cons] at h
      omega
    | succ fuel =>
      have hrest : enough (cur ++ (next ++ p.parts)) ≤ fuel := by
        rw [List.cons_append, enough_cons, enough_append] at h
        rw [enough_append, enough_append]
        unfold enough at *
        omega
      have hfuel : fuel + 1 - (p :: cur).length = fuel - cur.length := by
        rw [List.length_cons]
        omega
      rw [List.cons_append, visits, List.append_assoc, ih hrest, hfuel, List.flatMap_cons,
        List.cons_append, List.append_assoc]

/-- What is visited are the levels of the queue, one after the other. -/
theorem visits_eq_levels {queue : List Pending} {fuel n : Nat} (hfuel : enough queue ≤ fuel)
    (hn : enough queue ≤ n) : visits fuel queue = (List.range n).flatMap (level queue) := by
  induction n generalizing queue fuel with
  | zero =>
    have hlength := enough_flatMap_parts queue
    obtain rfl := List.eq_nil_of_length_eq_zero (show queue.length = 0 by omega)
    cases fuel <;> rfl
  | succ n ih =>
    have hlength := enough_flatMap_parts queue
    have hhere := @visits_append queue [] fuel (by rwa [List.append_nil])
    rw [List.append_nil, List.nil_append] at hhere
    have hbelow : visits (fuel - queue.length) (queue.flatMap Pending.parts)
        = (List.range n).flatMap (level (queue.flatMap Pending.parts)) := by
      cases queue with
      | nil => exact ih (by simp [enough]) (by simp [enough])
      | cons p queue =>
        rw [List.length_cons] at hlength ⊢
        exact ih (by omega) (by omega)
    rw [hhere, hbelow, List.range_succ_eq_map, List.flatMap_cons, List.flatMap_map]
    congr 1
    exact congrArg (fun f => (List.range n).flatMap f) (funext fun m => (level_succ queue m).symm)

/-! ## What is not absent -/

/-- The positions of a list at which there is something. -/
def present (ps : List Pending) : List Pending := ps.filter fun p => !p.value.isAbsent

theorem present_append (ps qs : List Pending) : present (ps ++ qs) = present ps ++ present qs :=
  List.filter_append ..

theorem present_flatMap {α : Type} (as : List α) (f : α → List Pending) :
    present (as.flatMap f) = as.flatMap fun a => present (f a) := by
  induction as with
  | nil => rfl
  | cons a as ih => rw [List.flatMap_cons, List.flatMap_cons, present_append, ih]

/-- What is absent has no parts. -/
theorem flatMap_parts_present (ps : List Pending) (f : List Pending → List Pending)
    (hf : f [] = []) :
    (present ps).flatMap (fun p => f p.parts) = ps.flatMap fun p => f p.parts := by
  induction ps with
  | nil => rfl
  | cons p ps ih =>
    cases hp : p.value with
    | absent =>
      have hparts : p.parts = [] := by rw [Pending.parts, hp]
      rw [present, List.filter_cons_of_neg (by simp [hp, Tree.isAbsent]), List.flatMap_cons,
        hparts, hf, List.nil_append]
      exact ih
    | _ =>
      rw [present, List.filter_cons_of_pos (by simp [hp, Tree.isAbsent]), List.flatMap_cons,
        List.flatMap_cons]
      exact congrArg _ ih

theorem present_level_succ (queue : List Pending) (n : Nat) :
    present (level queue (n + 1))
      = (present (level queue n)).flatMap fun p => present p.parts := by
  rw [level, present_flatMap, flatMap_parts_present _ present rfl]

/-- The sites of a tree are those of its levels. -/
theorem sites_eq_levels (type : Option Position) (t : Tree) :
    sites type t = (List.range t.extent).flatMap fun n =>
      (present (level [.root type t] n)).map Pending.site := by
  have hroot : enough [.root type t] ≤ t.extent := by simp [enough, Pending.root]
  rw [sites, visits_eq_levels hroot hroot]
  show List.map Pending.site (present _) = _
  rw [present_flatMap, List.map_flatMap]

/-! ## Levels of a part -/

theorem level_add (queue : List Pending) (m n : Nat) :
    level queue (m + n) = level (level queue m) n := by
  induction n with
  | zero => rfl
  | succ n ih => rw [← Nat.add_assoc, level, level, ih]

theorem level_sublist {queue queue' : List Pending} (h : queue.Sublist queue') (n : Nat) :
    (level queue n).Sublist (level queue' n) := by
  induction n with
  | zero => exact h
  | succ n ih => exact ih.flatMap _

namespace Pending

/-- A position of a part of a tree as a position of the tree, in which the part stands at the
position `p`. -/
def below (p x : Pending) : Pending :=
  ⟨p.path ++ x.path, p.types.dropLast ++ x.types, p.occupants ++ x.occupants, x.value⟩

theorem type_below (p : Pending) {x : Pending} (hx : x.types ≠ []) :
    (p.below x).type = x.type := by
  obtain ⟨last, hlast⟩ := Option.ne_none_iff_exists'.1 (mt List.getLast?_eq_none_iff.1 hx)
  simp [Pending.type, below, List.getLast?_append, hlast]

theorem below_enter (p x : Pending) (occupant : Option Kind) (step : Step)
    (type : Option Position) (v : Tree) :
    p.below (x.enter occupant step type v) = (p.below x).enter occupant step type v := by
  simp [below, enter]

/-- The parts of a position are the same in the part and in the tree. -/
theorem parts_below (p : Pending) {x : Pending} (hx : x.types ≠ []) :
    (p.below x).parts = x.parts.map p.below := by
  have hitems : ∀ (ts : List Tree) (i : Nat),
      (p.below x).items i ts = (x.items i ts).map p.below := by
    intro ts
    induction ts with
    | nil => intro i; rfl
    | cons t ts ih =>
      intro i
      rw [items, items, ih, List.map_append, List.map_singleton, below_enter, p.type_below hx]
  have hfields : ∀ (k : Kind) (slots : List Slot) (ts : List Tree),
      (p.below x).fields k slots ts = (x.fields k slots ts).map p.below := by
    intro k slots
    induction slots with
    | nil => intro ts; cases ts <;> rfl
    | cons slot slots ih =>
      intro ts
      cases ts with
      | nil => rfl
      | cons t ts =>
        rw [fields, fields, ih]
        split
        · rw [List.map_cons, below_enter]
        · rfl
  have hvalue : (p.below x).value = x.value := rfl
  rw [parts, parts, hvalue]
  split
  · exact hitems _ _
  · exact hfields _ _ _
  · rfl

theorem types_ne_nil_of_mem_parts {x y : Pending} (h : y ∈ x.parts) : y.types ≠ [] := by
  obtain ⟨f, u, -, -, rfl⟩ := mem_parts.1 h
  simp [hole, enter]

end Pending

/-- The levels of a part are among those of the tree. -/
theorem level_below (p : Pending) {queue : List Pending} (h : ∀ x ∈ queue, x.types ≠ [])
    (n : Nat) : level (queue.map p.below) n = (level queue n).map p.below := by
  induction n generalizing queue with
  | zero => rfl
  | succ n ih =>
    have hparts : (queue.map p.below).flatMap Pending.parts
        = (queue.flatMap Pending.parts).map p.below := by
      rw [List.flatMap_map, List.map_flatMap]
      exact List.flatMap_congr fun x hx => p.parts_below (h x hx)
    rw [level_succ, level_succ, hparts, ih]
    intro x hx
    obtain ⟨y, -, hx⟩ := List.mem_flatMap.1 hx
    exact Pending.types_ne_nil_of_mem_parts hx

theorem present_map_below (p : Pending) (xs : List Pending) :
    present (xs.map p.below) = (present xs).map p.below :=
  List.filter_map ..

theorem typesOf_append (root : Option Position) (ps fs : List Frame) :
    typesOf root (fs ++ ps)
      = (typesOf root ps).dropLast ++ typesOf (holeTypeOf false root ps) fs := by
  induction fs with
  | nil =>
    cases ps with
    | nil => rfl
    | cons f ps => simp [typesOf]
  | cons f fs ih =>
    rw [List.cons_append, typesOf, ih, List.append_assoc, typesOf, ← holeTypeOf_append]
    rfl

theorem occupantsOf_append (ps fs : List Frame) :
    occupantsOf (fs ++ ps) = occupantsOf ps ++ occupantsOf fs := by
  induction fs with
  | nil => simp [occupantsOf]
  | cons f fs ih => rw [List.cons_append, occupantsOf, ih, List.append_assoc, occupantsOf]

/-- A hole in the part is a hole in the tree with the frames around the part, too. -/
theorem below_pendingOf (root : Option Position) (ps fs : List Frame) (u w : Tree) :
    (pendingOf root ps u).below (pendingOf (holeTypeOf false root ps) fs w)
      = pendingOf root (fs ++ ps) w := by
  rw [Pending.below, pendingOf, pendingOf, pendingOf, ← pathOf_append, ← typesOf_append,
    ← occupantsOf_append]

theorem mem_level_pendingOf (root : Option Position) {ps : List Frame} (hps : Positions ps)
    (u : Tree) : pendingOf root ps u ∈ level [.root root (plugAll ps u)] ps.length := by
  induction ps generalizing u with
  | nil => exact List.mem_singleton_self _
  | cons f ps ih =>
    refine List.mem_flatMap.2 ⟨pendingOf root ps (f.plug u), ih hps.tail (f.plug u), ?_⟩
    exact Pending.mem_parts.2
      ⟨f, u, hps f List.mem_cons_self, rfl, (hole_pendingOf ..).symm⟩

theorem extentAll_append (ts us : List Tree) :
    extentAll (ts ++ us) = extentAll ts + extentAll us := by
  induction ts with
  | nil => rw [List.nil_append, extentAll, Nat.zero_add]
  | cons t ts ih => rw [List.cons_append, extentAll, extentAll, ih, Nat.add_assoc]

theorem extent_plugAll_ge (ps : List Frame) (u : Tree) :
    u.extent + ps.length ≤ (plugAll ps u).extent := by
  induction ps generalizing u with
  | nil => exact Nat.le_refl _
  | cons f ps ih =>
    have hplug : u.extent + 1 ≤ (f.plug u).extent := by
      cases f <;> simp only [Frame.plug, Tree.extent, extentAll_append, extentAll] <;> omega
    have hrest := ih (f.plug u)
    rw [List.length_cons, plugAll_cons]
    omega

/-- What is visited in a tree and not absent, in order. -/
def positions (root : Option Position) (t : Tree) : List Pending :=
  present (visits t.extent [.root root t])

theorem sites_eq_positions (root : Option Position) (t : Tree) :
    sites root t = (positions root t).map Pending.site := rfl

/-- What is visited in a part is visited in the tree in the same order, perhaps with more in
between. -/
theorem positions_sublist (root : Option Position) {ps : List Frame} (hps : Positions ps)
    (u : Tree) :
    ((positions (holeTypeOf false root ps) u).map (pendingOf root ps u).below).Sublist
      (positions root (plugAll ps u)) := by
  have hu : enough [.root (holeTypeOf false root ps) u] ≤ u.extent := by
    simp [enough, Pending.root]
  have ht : enough [.root root (plugAll ps u)] ≤ (plugAll ps u).extent := by
    simp [enough, Pending.root]
  rw [positions, positions, visits_eq_levels hu hu, visits_eq_levels ht ht, ← present_map_below,
    List.map_flatMap]
  refine List.Sublist.filter _ ?_
  -- the levels of the part begin as far down as the part is
  have hlevel : ∀ n, ((level [.root (holeTypeOf false root ps) u] n).map
      (pendingOf root ps u).below).Sublist
        (level [.root root (plugAll ps u)] (ps.length + n)) := by
    intro n
    have hroot : [Pending.root (holeTypeOf false root ps) u].map (pendingOf root ps u).below
        = [pendingOf root ps u] := by
      have h := below_pendingOf root ps [] u u
      rw [List.nil_append] at h
      exact congrArg (fun x => [x]) h
    rw [← level_below _ (by simp [Pending.root]), hroot, level_add]
    exact level_sublist (List.singleton_sublist.2 (mem_level_pendingOf root hps u)) n
  obtain ⟨rest, hrest⟩ := Nat.le.dest (extent_plugAll_ge ps u)
  rw [← hrest, show u.extent + ps.length + rest = ps.length + (u.extent + rest) by omega,
    List.range_add, List.flatMap_append, List.range_add, List.map_append, List.flatMap_append,
    List.flatMap_map]
  refine List.Sublist.trans ?_ (List.sublist_append_right _ _)
  refine List.Sublist.trans ?_ (List.sublist_append_left _ _)
  induction List.range u.extent with
  | nil => exact .slnil
  | cons n ns ih =>
    rw [List.flatMap_cons, List.flatMap_cons]
    exact (hlevel n).append ih

end Whittle
