import Whittle.Proofs.Edits
import Whittle.Proofs.Levels
import Whittle.Proofs.Resolve

/-!
# Edits in level order

The edits of a tree, told without a queue. The positions of the tree come level by level; each
has edits of its own, which depend on nothing but the value there, the type of the position and
what can be read at the prefixes of its path.
-/

namespace Whittle

open Grammar Whittle.Language

/-! ## Positions in level order -/

/-- The steps from a value to what is not absent in its fields or among its items. The fields are
those that can hold nodes, in order; the items come from the last to the first. -/
def Tree.steps : Tree → List Step
  | .node k fields => (k.slots.zip fields).filterMap fun e =>
    if e.1.position.isSome && !e.2.isAbsent then some (.field e.1.name) else none
  | .list items => (items.zipIdx.filterMap fun e =>
    if !e.1.isAbsent then some (.index e.2) else none).reverse
  | _ => []

/-- The steps from the value at a path. -/
def Tree.stepsAt (t : Tree) (p : Path) : List Step :=
  match t.get p with
  | .ok v => v.steps
  | .error _ => []

/-- The paths of `n` steps to what is not absent in a tree: one step more at the end of each
path of one step less. -/
def Tree.levelPaths (t : Tree) : Nat → List Path
  | 0 => if t.isAbsent then [] else [[]]
  | n + 1 => (t.levelPaths n).flatMap fun p => (t.stepsAt p).map fun s => p ++ [s]

/-- The paths to what is not absent in a tree, the shorter ones first. -/
def levelOrder (t : Tree) : List Path := (List.range t.extent).flatMap t.levelPaths

/-! ## What a path says -/

/-- The type of the part that a step leads to. -/
def stepType (type : Option Position) : Tree → Step → Option Position
  | .node k _, .field name => (k.slots.find? (·.name == name)).bind (·.position)
  | .list _, .index _ => itemType? type
  | _, _ => none

/-- The declared type of the position at a path, if the type of the root is the given one. -/
def typeAt (type : Option Position) : Tree → Path → Option Position
  | _, [] => type
  | t, s :: p =>
    match t.childAt s with
    | .ok v => typeAt (stepType type t s) v p
    | .error _ => none

/-- The kind of the node at a path. -/
def occupantAt (t : Tree) (p : Path) : Option Kind :=
  match t.get p with
  | .ok v => v.kind?
  | .error _ => none

/-- The kind of the node that has the position at a path for a field. -/
def ownerAt (t : Tree) (p : Path) : Option Kind :=
  if p = [] then none else occupantAt t p.dropLast

/-- The first path leads to a position around the one at the second path, and not to the root. -/
def Encloses (q p : Path) : Prop := q <+: p ∧ q ≠ p ∧ q ≠ []

/-- From the position at `q` inwards no node of the kind stands around the position at `p`. -/
def NoneFrom (t : Tree) (q p : Path) (k : Kind) : Prop :=
  ∀ r, q <+: r → Encloses r p → occupantAt t r ≠ some k

/-- What the node of kind `k` at the path `p` may become at the position `q` around it. -/
inductive LiftsTo (type : Option Position) (t : Tree) (p q : Path) (k : Kind) (node : Tree) :
    Tree → Prop
  | self (h : (typeAt type t q).any (·.required.takes k) = true) :
    LiftsTo type t p q k node node
  | statement (hk : k.isExpression = true)
    (htype : (typeAt type t q).any (·.required.takes .expressionStatement) = true)
    (h : NoneFrom t q p .expressionStatement) :
    LiftsTo type t p q k node (.node .expressionStatement [node])
  | block {field : String} {statements : Tree} (hk : k.statementField? = some field)
    (hfield : node.child (.field field) = .ok statements)
    (htype : (typeAt type t q).any (·.required.takes .expressionStatement) = true)
    (h : NoneFrom t q p .blockStatement) :
    LiftsTo type t p q k node (.node .blockStatement [.node .block [statements]])

/-- The promotion of the node at the path `p`: at the longest path that it can be lifted to, if
there is one. -/
def Promotes (type : Option Position) (t : Tree) (p : Path) (k : Kind) (node : Tree) :
    Option Edit → Prop
  | none => ∀ q v, Encloses q p → ¬ LiftsTo type t p q k node v
  | some e => Encloses e.path p ∧ LiftsTo type t p e.path k node e.value ∧
    ∀ q v, Encloses q p → LiftsTo type t p q k node v → q.length ≤ e.path.length

/-- The edits of the position at a path, in order. -/
inductive PositionEdits (type : Option Position) (t : Tree) (p : Path) : List Edit → Prop
  | list {items : List Tree} (h : t.get p = .ok (.list items)) :
    PositionEdits type t p
      (if mayDrop (ownerAt t p) items then (withoutEach items).map fun rest => ⟨p, .list rest⟩
      else [])
  | node {k : Kind} {fields : List Tree} {r : Option Edit} (h : t.get p = .ok (.node k fields))
    (hr : Promotes type t p k (.node k fields) r) :
    PositionEdits type t p
      ((if isOptional (typeAt type t p) then [⟨p, .absent⟩] else [])
        ++ r.toList
        ++ ((sentinels (typeAt type t p) k).map (Tree.node · [])
          ++ (simplifications k fields).items
          ++ (withFlagCleared fields).map (Tree.node k)).map (Edit.mk p))

/-! ## Frames and paths -/

theorem stepType_plug {f : Frame} (hf : f.isPosition = true) (type : Option Position)
    (u : Tree) : stepType type (f.plug u) f.step = f.holeType false type := by
  cases f with
  | item before after => rfl
  | field k before after =>
    obtain ⟨s, type', hs, hp⟩ := Frame.slot?_of_isPosition hf
    simp [Frame.plug, Frame.step, Frame.slot?, stepType, Frame.holeType, hs, find?_slot hs,
      slotPosition_strict]

theorem typeAt_plugAll {type : Option Position} {fs : List Frame} (hfs : Positions fs)
    (w : Tree) (p : Path) :
    typeAt type (plugAll fs w) (pathOf fs ++ p) = typeAt (holeTypeOf false type fs) w p := by
  induction fs generalizing w p with
  | nil => rfl
  | cons f fs ih =>
    have hf := hfs f List.mem_cons_self
    rw [plugAll_cons, pathOf, List.append_assoc, ih hfs.tail, List.singleton_append, typeAt,
      Frame.childAt_plug hf, stepType_plug hf]
    rfl

/-- The declared type at the path of frames is the type of their hole. -/
theorem typeAt_pathOf {type : Option Position} {fs : List Frame} (hfs : Positions fs)
    (w : Tree) : typeAt type (plugAll fs w) (pathOf fs) = holeTypeOf false type fs := by
  have h := @typeAt_plugAll type fs hfs w []
  rwa [List.append_nil] at h

theorem occupantAt_pathOf {fs : List Frame} (hfs : Positions fs) (w : Tree) :
    occupantAt (plugAll fs w) (pathOf fs) = w.kind? := by
  rw [occupantAt, get_plugAll hfs]

theorem kind?_plug (f : Frame) (u : Tree) : (f.plug u).kind? = f.occupant := by
  cases f <;> rfl

theorem ownerAt_pathOf {fs : List Frame} (hfs : Positions fs) (w : Tree) :
    ownerAt (plugAll fs w) (pathOf fs) = fs.head?.bind Frame.occupant := by
  cases fs with
  | nil => rfl
  | cons f fs =>
    rw [ownerAt, if_neg (by simp [pathOf]), pathOf, List.dropLast_concat, plugAll_cons,
      occupantAt_pathOf hfs.tail, kind?_plug]
    rfl

/-- A prefix of the path of frames is the path of the outer ones among them. -/
theorem prefix_pathOf {fs : List Frame} {q : Path} (h : q <+: pathOf fs) :
    ∃ inner outer, fs = inner ++ outer ∧ q = pathOf outer := by
  obtain ⟨p, hp⟩ := h
  have hle : q.length ≤ fs.length := by
    have := congrArg List.length hp
    rw [List.length_append, length_pathOf] at this
    omega
  refine ⟨fs.take (fs.length - q.length), fs.drop (fs.length - q.length),
    (List.take_append_drop ..).symm, ?_⟩
  have hsplit := pathOf_append (fs.take (fs.length - q.length)) (fs.drop (fs.length - q.length))
  rw [List.take_append_drop, ← hp] at hsplit
  refine (List.append_inj hsplit ?_).1
  rw [length_pathOf, List.length_drop]
  omega

theorem encloses_iff {fs : List Frame} {q : Path} : Encloses q (pathOf fs) ↔
    ∃ inner outer, fs = inner ++ outer ∧ inner ≠ [] ∧ outer ≠ [] ∧ q = pathOf outer := by
  constructor
  · rintro ⟨hstart, hne, hroot⟩
    obtain ⟨inner, outer, rfl, rfl⟩ := prefix_pathOf hstart
    refine ⟨inner, outer, rfl, ?_, ?_, rfl⟩
    · rintro rfl
      exact hne rfl
    · rintro rfl
      exact hroot rfl
  · rintro ⟨inner, outer, rfl, hinner, houter, rfl⟩
    have hinner := List.length_pos_iff.2 hinner
    have houter := List.length_pos_iff.2 houter
    refine ⟨?_, fun heq => ?_, fun heq => ?_⟩
    · rw [pathOf_append]
      exact List.prefix_append ..
    · have := congrArg List.length heq
      rw [length_pathOf, length_pathOf, List.length_append] at this
      omega
    · have := congrArg List.length heq
      rw [length_pathOf, List.length_nil] at this
      omega

/-- The nodes around a position from a path on are the frames on the way to it. -/
theorem noneFrom_iff {inner outer : List Frame} (hfs : Positions (inner ++ outer)) (w : Tree)
    (houter : outer ≠ []) (k : Kind) :
    NoneFrom (plugAll (inner ++ outer) w) (pathOf outer) (pathOf (inner ++ outer)) k ↔
      ∀ f ∈ inner, f.occupant ≠ some k := by
  constructor
  · intro h f hf
    obtain ⟨gs, hs, rfl⟩ := List.append_of_mem hf
    have hpath : pathOf outer <+: pathOf (hs ++ outer) := by
      rw [pathOf_append]
      exact List.prefix_append ..
    have hencloses : Encloses (pathOf (hs ++ outer)) (pathOf (gs ++ f :: hs ++ outer)) := by
      refine encloses_iff.2 ⟨gs ++ [f], hs ++ outer, by simp, by simp, by simp [houter], rfl⟩
    have hne := h _ hpath hencloses
    have hsplit : plugAll (gs ++ f :: hs ++ outer) w
        = plugAll (hs ++ outer) (f.plug (plugAll gs w)) := by
      rw [List.append_assoc, List.cons_append, plugAll_append, plugAll_cons]
    rw [hsplit, occupantAt_pathOf, kind?_plug] at hne
    · exact hne
    · intro g hg
      refine hfs g ?_
      simp only [List.mem_append, List.mem_cons] at hg ⊢
      tauto
  · intro h r hr hencloses
    obtain ⟨inner', outer', heq, hinner', houter', rfl⟩ := encloses_iff.1 hencloses
    obtain ⟨gs, f, rfl⟩ : ∃ gs f, inner' = gs ++ [f] := by
      obtain rfl | ⟨gs, f, rfl⟩ := inner'.eq_nil_or_concat
      · exact absurd rfl hinner'
      · exact ⟨gs, f, List.concat_eq_append ..⟩
    have hmem : f ∈ inner := by
      have hlen : (gs ++ [f]).length ≤ inner.length := by
        have hle := hr.length_le
        have hlength := congrArg List.length heq
        simp only [length_pathOf, List.length_append] at hle hlength ⊢
        omega
      have hstart : gs ++ [f] <+: inner := by
        refine List.prefix_of_prefix_length_le ?_ (List.prefix_append inner outer) hlen
        rw [heq]
        exact List.prefix_append ..
      exact hstart.subset (by simp)
    rw [heq] at hfs ⊢
    rw [plugAll_append, plugAll_concat, occupantAt_pathOf hfs.right, kind?_plug]
    exact h f hmem

/-! ## The edits of a position -/

variable {type : Option Position} {t : Tree}

theorem liftsTo_iff {inner outer : List Frame} {k : Kind} {fields : List Tree} {v : Tree}
    (hfs : Positions (inner ++ outer)) (houter : outer ≠ []) :
    LiftsTo type (plugAll (inner ++ outer) (.node k fields)) (pathOf (inner ++ outer))
        (pathOf outer) k (.node k fields) v ↔
      Lifts k (.node k fields) (holeTypeOf false type outer) inner v := by
  have htype := @typeAt_pathOf type outer hfs.right (plugAll inner (.node k fields))
  rw [← plugAll_append] at htype
  have hnone := noneFrom_iff hfs (.node k fields) houter
  constructor
  · intro h
    cases h with
    | self h => exact .self (htype ▸ h)
    | statement hk h hpassed => exact .statement hk (htype ▸ h) ((hnone _).1 hpassed)
    | block hk hfield h hpassed => exact .block hk hfield (htype ▸ h) ((hnone _).1 hpassed)
  · intro h
    cases h with
    | self h => exact .self (htype.symm ▸ h)
    | statement hk h hpassed => exact .statement hk (htype.symm ▸ h) ((hnone _).2 hpassed)
    | block hk hfield h hpassed => exact .block hk hfield (htype.symm ▸ h) ((hnone _).2 hpassed)

/-- The innermost frames out of which a node can be lifted are the longest path that it can be
lifted to. -/
theorem promotes_of_innermost {fs : List Frame} {k : Kind} {fields : List Tree}
    (hfs : Positions fs) {r : Option Edit}
    (h : Innermost type k (.node k fields) [] fs r) :
    Promotes type (plugAll fs (.node k fields)) (pathOf fs) k (.node k fields) r := by
  cases r with
  | none =>
    intro q v hq hv
    obtain ⟨inner, outer, rfl, hinner, houter, rfl⟩ := encloses_iff.1 hq
    exact h inner outer v rfl hinner houter ((liftsTo_iff hfs houter).1 hv)
  | some e =>
    obtain ⟨inner, outer, rfl, hinner, houter, hpath, hv, hleast⟩ := h
    refine ⟨?_, ?_, fun q v hq hv => ?_⟩
    · exact encloses_iff.2 ⟨inner, outer, rfl, hinner, houter, hpath⟩
    · rw [hpath]
      exact (liftsTo_iff hfs houter).2 hv
    · obtain ⟨inner', outer', heq, hinner', houter', rfl⟩ := encloses_iff.1 hq
      rw [heq] at hfs hv
      have hle := hleast inner' outer' v heq hinner' houter' ((liftsTo_iff hfs houter').1 hv)
      have hlength := congrArg List.length heq
      rw [List.length_append, List.length_append] at hlength
      rw [hpath, length_pathOf, length_pathOf]
      omega

/-- The edits at a site are those of its position, and all of them come about. -/
theorem siteEdits_eq {site : Site} (ht : t.IsFit false) (hsite : site ∈ sites type t) :
    ∃ es, site.edits = .ofList es ∧ PositionEdits type t site.surroundings.path es ∧
      ∀ e ∈ es, ∃ c, e.apply t = .ok c := by
  obtain ⟨fs, w, hfs, rfl, hw, rfl⟩ := mem_sites_iff.1 hsite
  have htype := @typeAt_pathOf type fs hfs w
  have howner := ownerAt_pathOf hfs w
  have hfit := FitsAt.holeAll fs (show FitsAt false none _ from ht) hfs
  cases w with
  | list items =>
    refine ⟨_, ?_, .list (get_plugAll hfs _), ?_⟩
    · rw [Site.edits_list, howner]
      split <;> rfl
    · intro e he
      split at he
      · obtain ⟨rest, -, rfl⟩ := List.mem_map.1 he
        exact ⟨_, apply_plugAll hfs _ _⟩
      · cases he
  | node k fields =>
    obtain ⟨r, hr, hinnermost⟩ : ∃ r, promotion k (.node k fields) (enclosingOf type fs) = .ok r ∧
        Innermost type k (.node k fields) [] fs r := by
      cases hne : fs with
      | nil =>
        refine ⟨none, rfl, fun inner outer v heq hinner _ _ => ?_⟩
        exact hinner (List.append_eq_nil_iff.1 heq.symm).1
      | cons f gs =>
        have hm : k ≠ .esModule :=
          (not_program_of_hole hfs (by simp [hne]) (show FitsAt true none _ from ht.loosen)).2
        rw [← hne]
        exact promotion_spec type hm hfit.isFit fs
    refine ⟨_, ?_, .node (get_plugAll hfs _) (promotes_of_innermost hfs hinnermost), ?_⟩
    · rw [Site.edits_eq hr hfit.isFit, htype]
    · intro e he
      have hpath : ∃ outer v, Positions outer ∧ e = ⟨pathOf outer, v⟩ ∧
          ∃ u, plugAll outer u = plugAll fs (.node k fields) := by
        simp only [List.mem_append] at he
        rcases he with (he | he) | he
        · split at he
          · obtain rfl := List.mem_singleton.1 he
            exact ⟨fs, _, hfs, rfl, _, rfl⟩
          · cases he
        · obtain rfl := Option.mem_toList.1 he
          obtain ⟨inner, outer, rfl, -, -, hpath, -⟩ := hinnermost
          exact ⟨outer, e.value, hfs.right, by rw [← hpath], _, (plugAll_append ..).symm⟩
        · obtain ⟨v, -, rfl⟩ := List.mem_map.1 he
          exact ⟨fs, _, hfs, rfl, _, rfl⟩
      obtain ⟨outer, v, houter, rfl, u, hu⟩ := hpath
      rw [← hu]
      exact ⟨_, apply_plugAll houter u v⟩
  | _ =>
    cases hhole : holeTypeOf false none fs with
    | none => rw [hhole] at hfit; exact hfit.elim
    | some type' => rw [hhole] at hfit; first | exact hfit.elim | exact absurd rfl hw

/-! ## The order of the sites -/

/-- The parts that join the queue are one step away, in the order of the steps. -/
theorem path_present_parts (p : Pending) :
    (present p.parts).map (·.path) = p.value.steps.map fun s => p.path ++ [s] := by
  have hitems : ∀ (ts : List Tree) (i : Nat), (present (p.items i ts)).map (·.path)
      = ((ts.zipIdx i).filterMap fun e =>
          if !e.1.isAbsent then some (Step.index e.2) else none).reverse.map
            fun s => p.path ++ [s] := by
    intro ts
    induction ts with
    | nil => intro i; rfl
    | cons t ts ih =>
      intro i
      rw [Pending.items, present_append, List.map_append, ih, List.zipIdx_cons,
        List.filterMap_cons]
      cases h : t.isAbsent <;> simp [present, Pending.enter, h]
  have hfields : ∀ (k : Kind) (slots : List Slot) (ts : List Tree),
      (present (p.fields k slots ts)).map (·.path)
        = ((slots.zip ts).filterMap fun e =>
            if e.1.position.isSome && !e.2.isAbsent then some (Step.field e.1.name)
            else none).map fun s => p.path ++ [s] := by
    intro k slots
    induction slots with
    | nil => intro ts; cases ts <;> rfl
    | cons slot slots ih =>
      intro ts
      cases ts with
      | nil => rfl
      | cons t ts =>
        rw [Pending.fields, List.zip_cons_cons, List.filterMap_cons]
        cases hp : slot.position with
        | none => simpa using ih ts
        | some type =>
          have ih := ih ts
          unfold present at ih ⊢
          cases h : t.isAbsent <;> simp [Pending.enter, h, ih]
  unfold Pending.parts
  split
  · rename_i ts hvalue
    rw [hvalue]
    exact hitems ts 0
  · rename_i k ts hvalue
    rw [hvalue]
    exact hfields k k.slots ts
  · rename_i hlist hnode
    cases hvalue : p.value with
    | list ts => exact absurd hvalue (hlist ts)
    | node k ts => exact absurd hvalue (hnode k ts)
    | _ => rfl

/-- What is in a level is inside the queue. -/
theorem reaches_of_mem_level {queue : List Pending} {x : Pending} {n : Nat}
    (h : x ∈ level queue n) :
    ∃ p ∈ queue, Relation.ReflTransGen (fun a b => b ∈ a.parts) p x := by
  induction n generalizing x with
  | zero => exact ⟨x, h, .refl⟩
  | succ n ih =>
    obtain ⟨y, hy, hx⟩ := List.mem_flatMap.1 h
    obtain ⟨p, hp, hreach⟩ := ih hy
    exact ⟨p, hp, hreach.tail hx⟩

/-- A position on a level of a tree has the value that is there. -/
theorem get_of_mem_level {x : Pending} {n : Nat} (h : x ∈ level [.root type t] n) :
    t.get x.path = .ok x.value := by
  obtain ⟨p, hp, hreach⟩ := reaches_of_mem_level h
  obtain rfl := List.mem_singleton.1 hp
  obtain ⟨fs, w, hfs, rfl, rfl⟩ := (@reaches_pendingOf type [] t x).1 hreach
  rw [List.append_nil]
  exact get_plugAll hfs w

theorem path_level (type : Option Position) (t : Tree) (n : Nat) :
    (present (level [.root type t] n)).map (·.path) = t.levelPaths n := by
  induction n with
  | zero => cases h : t.isAbsent <;> simp [level, present, Pending.root, Tree.levelPaths, h]
  | succ n ih =>
    rw [present_level_succ, List.map_flatMap, Tree.levelPaths, ← ih, List.flatMap_map]
    refine List.flatMap_congr fun x hx => ?_
    have hget := get_of_mem_level (List.mem_filter.1 hx).1
    rw [path_present_parts, Tree.stepsAt, hget]

theorem path_sites (type : Option Position) (t : Tree) :
    (sites type t).map (·.surroundings.path) = levelOrder t := by
  rw [sites_eq_levels, List.map_flatMap, levelOrder]
  refine List.flatMap_congr fun n _ => ?_
  rw [List.map_map, ← path_level type t n]
  rfl

/-! ## Each position comes once -/

theorem nodup_steps (t : Tree) : t.steps.Nodup := by
  cases t with
  | node k fields =>
    have hsub : ∀ (slots : List Slot) (ts : List Tree),
        ((slots.zip ts).filterMap fun e =>
          if e.1.position.isSome && !e.2.isAbsent then some (Step.field e.1.name)
          else none).Sublist (slots.map fun s => Step.field s.name) := by
      intro slots
      induction slots with
      | nil => intro ts; cases ts <;> exact List.nil_sublist _
      | cons slot slots ih =>
        intro ts
        cases ts with
        | nil => exact List.nil_sublist _
        | cons t ts =>
          rw [List.zip_cons_cons, List.filterMap_cons, List.map_cons]
          split
          · exact (ih ts).cons _
          · rename_i s hs
            obtain rfl : Step.field slot.name = s := by
              split at hs <;> simp_all
            exact (ih ts).cons_cons _
    refine (hsub k.slots fields).nodup ?_
    have hnames : (k.slots.map fun s => Step.field s.name) = k.fieldNames.map Step.field := by
      simp [Kind.fieldNames]
    rw [hnames]
    exact (fieldNames_nodup k).map fun a b h => Step.field.inj h
  | list items =>
    refine List.nodup_reverse.2 ?_
    rw [show items.zipIdx = items.zipIdx 0 from rfl]
    generalize 0 = i
    have hge : ∀ (ts : List Tree) (i : Nat), ∀ s ∈ (ts.zipIdx i).filterMap (fun e =>
        if !e.1.isAbsent then some (Step.index e.2) else none), ∃ j ≥ i, s = .index (j : Nat) := by
      intro ts i s hs
      obtain ⟨⟨t, j⟩, hmem, hj⟩ := List.mem_filterMap.1 hs
      have hle := List.le_snd_of_mem_zipIdx hmem
      split at hj
      · cases hj
        exact ⟨j, hle, rfl⟩
      · cases hj
    induction items generalizing i with
    | nil => exact List.nodup_nil
    | cons t ts ih =>
      rw [List.zipIdx_cons, List.filterMap_cons]
      split
      · exact ih (i + 1)
      · rename_i s hs
        refine List.nodup_cons.2 ⟨fun hmem => ?_, ih (i + 1)⟩
        obtain ⟨j, hj, rfl⟩ := hge ts (i + 1) s hmem
        split at hs
        · simp only [Option.some.injEq, Step.index.injEq, Nat.cast_inj] at hs
          omega
        · cases hs
  | _ => exact List.nodup_nil

theorem length_of_mem_levelPaths {p : Path} {n : Nat} (h : p ∈ t.levelPaths n) :
    p.length = n := by
  induction n generalizing p with
  | zero =>
    rw [Tree.levelPaths] at h
    split at h
    · cases h
    · rw [List.mem_singleton.1 h]
      rfl
  | succ n ih =>
    obtain ⟨q, hq, hp⟩ := List.mem_flatMap.1 h
    obtain ⟨s, -, rfl⟩ := List.mem_map.1 hp
    rw [List.length_append, ih hq]
    rfl

theorem nodup_levelPaths (t : Tree) (n : Nat) : (t.levelPaths n).Nodup := by
  induction n with
  | zero =>
    rw [Tree.levelPaths]
    split
    · exact List.nodup_nil
    · exact List.nodup_singleton _
  | succ n ih =>
    rw [Tree.levelPaths, List.nodup_flatMap]
    constructor
    · intro p _
      refine List.Nodup.map (fun a b h => by simpa using h) ?_
      unfold Tree.stepsAt
      split
      · exact nodup_steps _
      · exact List.nodup_nil
    · refine ih.imp fun {p q} hne x hp hq => ?_
      obtain ⟨s, -, rfl⟩ := List.mem_map.1 hp
      obtain ⟨s', -, heq⟩ := List.mem_map.1 hq
      exact hne (List.append_inj_left' heq rfl).symm

/-- No position comes twice. -/
theorem nodup_levelOrder (t : Tree) : (levelOrder t).Nodup := by
  rw [levelOrder, List.nodup_flatMap]
  refine ⟨fun n _ => nodup_levelPaths t n, List.nodup_range.imp fun {m n} hne x hm hn => ?_⟩
  exact hne ((length_of_mem_levelPaths hm).symm.trans (length_of_mem_levelPaths hn))

/-- The positions in level order are all of those that hold something. -/
theorem mem_levelOrder (ht : t.IsFit false) {p : Path} : p ∈ levelOrder t ↔
    ∃ v, t.get p = .ok v ∧ v ≠ .absent ∧ (p = [] ∨ (typeAt none t p).isSome = true) := by
  rw [← path_sites none t, List.mem_map]
  constructor
  · rintro ⟨site, hsite, rfl⟩
    obtain ⟨fs, w, hfs, rfl, hw, rfl⟩ := mem_sites_iff.1 hsite
    refine ⟨w, get_plugAll hfs w, hw, ?_⟩
    cases hne : fs with
    | nil => exact .inl rfl
    | cons f gs =>
      right
      rw [← hne, typeAt_pathOf hfs]
      obtain ⟨type, -, htype, -⟩ := loosens_holeTypeOf hfs w ht.loosen (by simp [hne])
      rw [htype]
      rfl
  · rintro ⟨v, hget, hv, hp⟩
    obtain ⟨fs, rfl, rfl, htail, hhead⟩ :=
      exists_frames_of_get (show FitsAt false none t from ht) hget
    have hfs : Positions fs := by
      cases fs with
      | nil => exact htail
      | cons f gs =>
        refine .cons ?_ htail
        cases f with
        | item before after => rfl
        | field k before after =>
          obtain ⟨s, hs⟩ := Option.isSome_iff_exists.1 (hhead _ rfl rfl)
          have hs' : k.slots[before.length]? = some s := hs
          rcases hp with hp | hp
          · simp [pathOf] at hp
          · have hstep : (Frame.field k before after).step = .field s.name := by
              simp [Frame.step, hs]
            have htail : Positions gs := htail
            rw [plugAll_cons, pathOf, typeAt_plugAll htail, typeAt] at hp
            split at hp
            · rw [typeAt, hstep] at hp
              simpa [Frame.plug, stepType, find?_slot hs', Frame.isPosition, hs] using hp
            · cases hp
    exact ⟨_, mem_sites_iff.2 ⟨fs, v, hfs, rfl, hv, rfl⟩, rfl⟩

/-! ## All edits -/

/-- The variants of a well-typed tree are those of its positions in level order: the positions
are all that hold something, each comes once, and the edits of each depend on what can be read
at its path and at the prefixes of it. Every edit comes about. -/
theorem variants_levelOrder (ht : t.wellTyped = true) (type : Option Position) :
    (levelOrder t).Nodup ∧
    (∀ p, p ∈ levelOrder t ↔
      ∃ v, t.get p = .ok v ∧ v ≠ .absent ∧ (p = [] ∨ (typeAt none t p).isSome = true)) ∧
    ∃ ess cs, List.Forall₂ (PositionEdits type t) (levelOrder t) ess ∧
      variants type t = .ofList cs ∧
      List.Forall₂ (fun e c => t.replace e.path e.value = .ok c) ess.flatten cs := by
  have hfit := wellTyped_iff.1 ht
  refine ⟨nodup_levelOrder t, fun p => mem_levelOrder hfit, ?_⟩
  have hsites : ∀ site ∈ sites type t, site.edits = .ofList site.edits.items ∧
      PositionEdits type t site.surroundings.path site.edits.items ∧
      ∀ e ∈ site.edits.items, ∃ c, e.apply t = .ok c := by
    intro site hsite
    obtain ⟨es, heq, hes⟩ := siteEdits_eq hfit hsite
    rw [heq]
    exact ⟨rfl, hes⟩
  have hedits : edits type t = .ofList ((sites type t).map (·.edits.items)).flatten := by
    rw [edits, ← Series.concat_ofList, List.map_map]
    exact congrArg _ (List.map_congr_left fun site hsite => (hsites site hsite).1)
  have happly : ∀ e ∈ ((sites type t).map (·.edits.items)).flatten, ∃ c, e.apply t = .ok c := by
    intro e he
    obtain ⟨es, hes, he⟩ := List.mem_flatten.1 he
    obtain ⟨site, hsite, rfl⟩ := List.mem_map.1 hes
    exact (hsites site hsite).2.2 e he
  obtain ⟨cs, hcs, hforall⟩ := Series.mapExcept_ofList happly
  refine ⟨_, cs, ?_, by rw [variants, hedits, hcs], hforall.imp fun e c => apply_eq_ok.1⟩
  rw [← path_sites type t, List.forall₂_map_left_iff, List.forall₂_map_right_iff,
    List.forall₂_same]
  exact fun site hsite => (hsites site hsite).2.1

/-- A script whose only statement is `this`. -/
def thisScript : Tree :=
  .node .script [.list [], .list [.node .expressionStatement [.node .thisExpression []]]]

/-- The positions of the script `this`, and how many variants they give. -/
theorem variants_levelOrder_thisScript :
    thisScript.wellTyped = true ∧
    levelOrder thisScript = [[], [.field "directives"], [.field "statements"],
      [.field "statements", .index 0], [.field "statements", .index 0, .field "expression"]] ∧
    ∃ ess cs, List.Forall₂ (PositionEdits none thisScript) (levelOrder thisScript) ess ∧
      variants none thisScript = .ofList cs ∧ cs.length = ess.flatten.length ∧
      cs.length = 3 := by
  have ht : thisScript.wellTyped = true := by decide
  obtain ⟨-, -, ess, cs, hess, hcs, hforall⟩ := variants_levelOrder ht none
  have hlength : (variants none thisScript).items.length = 3 := by decide
  rw [hcs] at hlength
  exact ⟨ht, by decide, ess, cs, hess, hcs, hforall.length_eq.symm, hlength⟩

end Whittle
