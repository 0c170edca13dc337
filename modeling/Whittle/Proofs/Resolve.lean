import Whittle.Proofs.Frames

/-!
# Paths that resolve

In a tree that fits, a path that resolves leads into the hole of frames around the value it
leads to, and the type that its resolution finds is the type of that hole.
-/

namespace Whittle

open Grammar Whittle.Language

/-- A step that resolves leads into the hole of a frame; the hole of a node is one of its
slots. -/
theorem exists_frame_of_childAt {t c : Tree} {s : Step} (h : t.childAt s = .ok c) :
    ∃ f : Frame, f.plug c = t ∧ f.step = s ∧ (f.occupant.isSome = true → f.slot?.isSome = true) := by
  obtain ⟨i, hplace, hpart⟩ := Tree.childAt_eq_ok.1 h
  obtain ⟨hlt, hget⟩ := List.getElem?_eq_some_iff.1 hpart
  have hsplit : t.parts.take i ++ c :: t.parts.drop (i + 1) = t.parts := by
    rw [← hget, List.getElem_cons_drop, List.take_append_drop]
  have hlen : (t.parts.take i).length = i := by
    rw [List.length_take]
    omega
  cases t with
  | list items =>
    refine ⟨.item (items.take i) (items.drop (i + 1)), congrArg Tree.list hsplit, ?_, by
      simp [Frame.occupant]⟩
    cases s with
    | index j =>
      simp only [Tree.place] at hplace
      split at hplace
      · rename_i hj
        cases hplace
        have hlen : (items.take j.toNat).length = j.toNat := hlen
        rw [Frame.step, hlen]
        congr 1
        omega
      · cases hplace
    | _ => simp [Tree.place] at hplace
  | node k fields =>
    cases s with
    | field name =>
      simp only [Tree.place] at hplace
      split at hplace
      · rename_i j hj
        split at hplace
        · cases hplace
          have hname := (List.idxOf?_eq_some_iff.1 hj)
          obtain ⟨hi, hname, -⟩ := hname
          have hslot : ∃ slot, k.slots[i]? = some slot ∧ slot.name = name := by
            simp only [Kind.fieldNames, List.length_map] at hi
            refine ⟨k.slots[i], by simp [hi], ?_⟩
            simpa [Kind.fieldNames] using hname
          obtain ⟨slot, hslot, rfl⟩ := hslot
          have hlen : (fields.take i).length = i := hlen
          refine ⟨.field k (fields.take i) (fields.drop (i + 1)), congrArg (Tree.node k) hsplit,
            ?_, ?_⟩
          · simp [Frame.step, Frame.slot?, hlen, hslot]
          · simp [Frame.slot?, hlen, hslot]
        · cases hplace
      · cases hplace
    | _ => simp [Tree.place] at hplace
  | _ => cases s <;> simp [Tree.place] at hplace

theorem find?_slot {k : Kind} {i : Nat} {s : Slot} (hs : k.slots[i]? = some s) :
    k.slots.find? (·.name == s.name) = some s := by
  cases h : k.slots.find? (·.name == s.name) with
  | none =>
    have := List.find?_eq_none.1 h s (List.mem_of_getElem? hs)
    simp at this
  | some s' =>
    have hname : s'.name = s.name := by simpa using List.find?_some h
    obtain ⟨j, hj⟩ := List.mem_iff_getElem?.1 (List.mem_of_find?_eq_some h)
    have hi := idxOf?_fieldNames hs
    rw [← hname, idxOf?_fieldNames hj] at hi
    cases hi
    exact hj.symm.trans hs

variable {loose : Bool}

/-- A frame around something with parts has a position for a hole. -/
theorem Frame.isPosition_of_parts {f : Frame} {type : Option Position} {t : Tree}
    (h : FitsAt loose type (f.plug t)) (hslot : f.occupant.isSome = true → f.slot?.isSome = true)
    (ht : t.isLeaf = false) : f.isPosition = true := by
  cases f with
  | item before after => rfl
  | field k before after =>
    obtain ⟨s, hs, hfit⟩ := (FitsAt.isFit h).middle
    cases hp : s.position with
    | some type => simp [isPosition, slot?, hs, hp]
    | none =>
      rw [FitsSlot, slotPosition_eq_none.2 hp] at hfit
      have hplain := isPlainSlot_of_mem (List.mem_of_getElem? hs)
      rw [isPlainSlot, hp] at hplain
      have := isLeaf_of_admits hplain hfit
      rw [ht] at this
      cases this

/-- What can be read in a tree that fits is in the hole of frames. All holes but perhaps the
innermost can hold nodes. -/
theorem exists_frames_of_get {type : Option Position} {t u : Tree} {path : Path}
    (h : FitsAt loose type t) (hget : t.get path = .ok u) :
    ∃ fs, plugAll fs u = t ∧ pathOf fs = path ∧ Positions fs.tail ∧
      ∀ f ∈ fs.head?, f.occupant.isSome = true → f.slot?.isSome = true := by
  induction path generalizing type t with
  | nil =>
    cases hget
    exact ⟨[], rfl, rfl, by simp [Positions], by simp⟩
  | cons s p ih =>
    obtain ⟨c, hc, hrest⟩ := Tree.get_cons_eq_ok.1 hget
    obtain ⟨f, rfl, rfl, hslot⟩ := exists_frame_of_childAt hc
    cases p with
    | nil =>
      cases hrest
      refine ⟨[f], rfl, rfl, by simp [Positions], ?_⟩
      intro g hg
      cases hg
      exact hslot
    | cons s' p' =>
      have hparts : c.isLeaf = false := by
        obtain ⟨c', hc', -⟩ := Tree.get_cons_eq_ok.1 hrest
        obtain ⟨g, rfl, -⟩ := exists_frame_of_childAt hc'
        cases g <;> rfl
      have hf := Frame.isPosition_of_parts h hslot hparts
      obtain ⟨type', -, hfit⟩ := h.hole hf
      obtain ⟨gs, rfl, hpath, hpos, hhead⟩ := @ih (some type') _ hfit hrest
      obtain ⟨g, gs', rfl⟩ : ∃ g gs', gs = g :: gs' := by
        cases gs with
        | nil => simp [pathOf] at hpath
        | cons g gs' => exact ⟨g, gs', rfl⟩
      refine ⟨g :: gs' ++ [f], plugAll_concat .., ?_, ?_, hhead⟩
      · rw [pathOf_append, hpath]
        rfl
      · simp only [List.cons_append, List.tail_cons] at hpos ⊢
        exact hpos.append (by simpa [Positions] using hf)

namespace Search

/-- A path that resolves in a tree that fits leads into the hole of frames all of whose holes
can hold nodes, and its type is the type of the innermost hole. -/
theorem exists_frames_of_resolve {t u : Tree} {path : Path} {type : Option Position}
    (h : t.IsFit loose) (hres : resolve t path = .ok (u, type)) :
    ∃ fs, Positions fs ∧ plugAll fs u = t ∧ pathOf fs = path ∧
      type = holeTypeOf false none fs := by
  obtain ⟨fs, rfl, rfl, hpos, hslot⟩ := @exists_frames_of_get loose none _ _ _ h
    (get_of_resolve hres)
  cases fs with
  | nil =>
    cases hres
    exact ⟨[], by simp [Positions], rfl, rfl, rfl⟩
  | cons f gs =>
    have hslot := hslot f rfl
    obtain ⟨-, parent, hparent, htype⟩ := resolve_concat_eq_ok.1 hres
    have hget := get_plugAll (t := f.plug u) hpos
    cases hparent.symm.trans hget
    suffices hf : f.isPosition = true ∧ type = holeTypeOf false none (f :: gs) from
      ⟨f :: gs, fun g hg => by
        rcases List.mem_cons.1 hg with rfl | hg
        · exact hf.1
        · exact hpos g hg, rfl, rfl, hf.2⟩
    cases f with
    | field k before after =>
      obtain ⟨s, hs⟩ := Option.isSome_iff_exists.1 (hslot rfl)
      have hs' : k.slots[before.length]? = some s := hs
      have hstep : (Frame.field k before after).step = .field s.name := by
        simp [Frame.step, hs]
      simp only [positionType, Frame.plug, outline, hstep, declaredType, find?_slot hs',
        Option.bind_some] at htype
      cases hp : s.position with
      | none => simp [hp, bind, Except.bind] at htype
      | some p =>
        simp only [hp, bind, Except.bind, pure, Except.pure, Except.ok.injEq] at htype
        refine ⟨by simp [Frame.isPosition, hs, hp], ?_⟩
        simp [holeTypeOf, Frame.holeType, hs, slotPosition_strict, hp, ← htype]
    | item before after =>
      refine ⟨rfl, ?_⟩
      cases gs with
      | nil => exact h.elim
      | cons g gs =>
        simp only [positionType, Frame.plug, outline, pathOf, List.dropLast_concat,
          List.getLast?_append, List.getLast?_singleton, Option.some_or] at htype
        have howner := get_plugAll (t := g.plug (.list (before ++ u :: after))) hpos.tail
        have hg := hpos g List.mem_cons_self
        simp only [plugAll_cons, Frame.plug] at htype howner
        rw [howner] at htype
        cases g with
        | item before' after' =>
          simp [declaredType, bind, Except.bind] at htype
        | field k before' after' =>
          obtain ⟨s, p, hs, hp⟩ := Frame.slot?_of_isPosition hg
          have hs' : (Frame.field k before' after').slot? = some s := hs
          have hstep : (Frame.field k before' after').step = .field s.name := by
            simp [Frame.step, hs']
          simp only [hstep, declaredType, find?_slot hs, Option.bind_some, hp, bind, Except.bind,
            pure, Except.pure, Except.ok.injEq] at htype
          simp only [holeTypeOf, Frame.holeType, hs', Option.bind_some, slotPosition_strict, hp,
            ← htype]
          -- the list fits the field, so the field is a list of something
          obtain ⟨t', hlist, -⟩ :=
            (@FitsAt.holeAll loose none _ (.field k before' after' :: gs) h hpos).items
          simp only [holeTypeOf, Frame.holeType, hs', Option.bind_some] at hlist
          cases hp.symm.trans (slotPosition_of_list hlist)
          rfl

/-- A path into the hole of frames resolves, if all holes can hold nodes. -/
theorem exists_resolve_plugAll {fs : List Frame} (hfs : Positions fs) {u : Tree}
    (h : (plugAll fs u).IsFit loose) :
    ∃ type, resolve (plugAll fs u) (pathOf fs) = .ok (u, type) := by
  cases fs with
  | nil => exact ⟨none, rfl⟩
  | cons f gs =>
    have hget := get_plugAll hfs u
    have hparent : (plugAll (f :: gs) u).get (pathOf gs) = .ok (f.plug u) :=
      get_plugAll hfs.tail (f.plug u)
    suffices htype : ∃ type, positionType ((plugAll (f :: gs) u).get (pathOf gs).dropLast)
        (f.plug u) f.step (pathOf gs ++ [f.step]) = .ok type by
      obtain ⟨type, htype⟩ := htype
      exact ⟨type, resolve_concat_eq_ok.2 ⟨hget, f.plug u, hparent, htype⟩⟩
    cases f with
    | field k before after =>
      obtain ⟨s, type, hs, hp⟩ := Frame.slot?_of_isPosition (hfs _ List.mem_cons_self)
      have hstep : (Frame.field k before after).step = .field s.name := by
        simp [Frame.step, Frame.slot?, hs]
      refine ⟨some type, ?_⟩
      simp only [positionType, Frame.plug, outline, hstep, declaredType, find?_slot hs,
        Option.bind_some, hp]
      rfl
    | item before after =>
      cases gs with
      | nil => exact h.elim
      | cons g gs =>
        cases g with
        | item before' after' =>
          -- a list would be an item of a list
          cases isNode_of_item hfs.tail.tail (show FitsAt loose none _ from h) (isLeaf_plug ..)
        | field k before' after' =>
          obtain ⟨s, type, hs, hp⟩ := Frame.slot?_of_isPosition (hfs.tail _ List.mem_cons_self)
          have hstep : (Frame.field k before' after').step = .field s.name := by
            simp [Frame.step, Frame.slot?, hs]
          have howner := get_plugAll hfs.tail.tail
            ((Frame.field k before' after').plug (.list (before ++ u :: after)))
          refine ⟨wrappedType? type, ?_⟩
          simp only [positionType, Frame.plug, outline, pathOf, List.dropLast_concat,
            List.getLast?_append, List.getLast?_singleton, Option.some_or, plugAll_cons]
          simp only [Frame.plug] at howner
          rw [howner, hstep]
          simp only [declaredType, find?_slot hs, Option.bind_some, hp, bind, Except.bind, pure,
            Except.pure]

/-- Whether a path leads to a position of a tree that can hold nodes, as all positions on its way
can. -/
def LeadsToPosition (t : Tree) (path : Path) : Prop :=
  ∃ fs u, Positions fs ∧ plugAll fs u = t ∧ pathOf fs = path

/-- The paths that resolve in a tree that fits are those that lead to a position. -/
theorem resolves_iff {t : Tree} (h : t.IsFit loose) {path : Path} :
    (∃ r, resolve t path = .ok r) ↔ LeadsToPosition t path := by
  constructor
  · rintro ⟨⟨u, type⟩, hres⟩
    obtain ⟨fs, hfs, ht, hpath, -⟩ := exists_frames_of_resolve h hres
    exact ⟨fs, u, hfs, ht, hpath⟩
  · rintro ⟨fs, u, hfs, rfl, rfl⟩
    obtain ⟨type, hres⟩ := exists_resolve_plugAll hfs h
    exact ⟨_, hres⟩

end Search

end Whittle
