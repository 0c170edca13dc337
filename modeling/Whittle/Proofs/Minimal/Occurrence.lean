import Whittle.Proofs.Resolve

/-!
# Occurrences

A node of some kind occurs in a tree if it stands in the hole of frames that the tree is. What
occurs in the hole of frames occurs in the whole.
-/

namespace Whittle

namespace Tree

theorem containsWhereAll_eq_any (p : Kind → Bool) (ts : List Tree) :
    containsWhereAll p ts = ts.any (·.containsWhere p) := by
  induction ts with
  | nil => rfl
  | cons t ts ih => rw [containsWhereAll, ih, List.any_cons]

@[simp] theorem contains_node (T k : Kind) (fields : List Tree) :
    (Tree.node k fields).contains T = (k == T || fields.any (·.contains T)) := by
  rw [contains, containsWhere, containsWhereAll_eq_any]
  rfl

@[simp] theorem contains_list (T : Kind) (items : List Tree) :
    (Tree.list items).contains T = items.any (·.contains T) := by
  rw [contains, containsWhere, containsWhereAll_eq_any]
  rfl

/-- Nothing occurs in a leaf. -/
theorem contains_leaf {T : Kind} {t : Tree} (h : t.isLeaf = true) : t.contains T = false := by
  cases t with
  | list items => cases h
  | node k fields => cases h
  | _ => rfl

end Tree

theorem contains_plug (f : Frame) {T : Kind} {u : Tree} (h : u.contains T = true) :
    (f.plug u).contains T = true := by
  cases f with
  | field k before after => simp [Frame.plug, h]
  | item before after => simp [Frame.plug, h]

theorem contains_plugAll {T : Kind} {u : Tree} (fs : List Frame) (h : u.contains T = true) :
    (plugAll fs u).contains T = true := by
  induction fs generalizing u with
  | nil => exact h
  | cons f fs ih => exact ih (contains_plug f h)

/-- Whether a node of the kind occurs around the hole of frames, whatever stands in it. -/
def OccursAround (T : Kind) (fs : List Frame) : Prop := ∀ v, (plugAll fs v).contains T = true

theorem OccursAround.cons {T : Kind} {fs : List Frame} (h : OccursAround T fs) (f : Frame) :
    OccursAround T (f :: fs) := fun v => h (f.plug v)

theorem occursAround_kind (T : Kind) (before after : List Tree) (fs : List Frame) :
    OccursAround T (.field T before after :: fs) := by
  intro v
  refine contains_plugAll fs ?_
  rw [Frame.plug, Tree.contains_node, beq_self_eq_true, Bool.true_or]

theorem occursAround_field {T k : Kind} {before after : List Tree} (fs : List Frame) {u : Tree}
    (hmem : u ∈ before ++ after) (hu : u.contains T = true) :
    OccursAround T (.field k before after :: fs) := by
  intro v
  refine contains_plugAll fs ?_
  rw [Frame.plug, Tree.contains_node, Bool.or_eq_true, List.any_eq_true]
  refine .inr ⟨u, ?_, hu⟩
  simp only [List.mem_append, List.mem_cons] at hmem ⊢
  tauto

variable {loose : Bool}

/-- What occurs in a tree that fits stands in the hole of frames all of whose holes can hold
nodes. -/
theorem exists_frames_of_contains {T : Kind} {type : Option Position} {t : Tree}
    (h : FitsAt loose type t) (ht : t.contains T = true) :
    ∃ fs fields, Positions fs ∧ plugAll fs (.node T fields) = t := by
  -- it is the tree itself or occurs in a part of it
  have hpart : ∀ (f : Frame) (v : Tree), f.plug v = t → v.contains T = true →
      (f.occupant.isSome = true → f.slot?.isSome = true) →
      ∃ fs fields, Positions fs ∧ plugAll fs (.node T fields) = t := by
    rintro f v rfl hv hslot
    have hleaf : v.isLeaf = false := by
      cases hl : v.isLeaf with
      | false => rfl
      | true =>
        rw [Tree.contains_leaf hl] at hv
        cases hv
    have hf := Frame.isPosition_of_parts h hslot hleaf
    obtain ⟨type', -, hfit⟩ := h.hole hf
    have hlt := f.sizeOf_lt_plug v
    obtain ⟨fs, fields, hfs, rfl⟩ := @exists_frames_of_contains T (some type') v hfit hv
    exact ⟨fs ++ [f], fields, hfs.append (by simpa [Positions] using hf), plugAll_concat ..⟩
  cases t with
  | node k fields =>
    rw [Tree.contains_node, Bool.or_eq_true, beq_iff_eq, List.any_eq_true] at ht
    rcases ht with rfl | ⟨v, hmem, hv⟩
    · exact ⟨[], fields, by simp [Positions], rfl⟩
    · obtain ⟨before, after, rfl⟩ := List.append_of_mem hmem
      obtain ⟨s, hs, -⟩ := (FitsAt.isFit h).middle
      exact hpart (.field k before after) v rfl hv fun _ => by simp [Frame.slot?, hs]
  | list items =>
    rw [Tree.contains_list, List.any_eq_true] at ht
    obtain ⟨v, hmem, hv⟩ := ht
    obtain ⟨before, after, rfl⟩ := List.append_of_mem hmem
    exact hpart (.item before after) v rfl hv (by simp [Frame.occupant])
  | _ => cases ht
termination_by sizeOf t
decreasing_by
  subst_vars
  assumption

end Whittle
