import Whittle.Proofs.Minimal.Occurrence
import Whittle.Proofs.Validity.Deletion

/-!
# Minimal programs

A valid program is minimal for a kind of nodes if such a node occurs in it and every edit leads
to a tree that is no program or has no such node. What an edit may not do to a minimal program
is said here for each sort of edit: where a trimmed form of the program can be reached, the node
is lost.
-/

namespace Whittle

open Grammar Whittle.Language

/-! ## Minimal programs -/

/-- A valid program in which a node of the kind occurs, and of which every edit makes something
else. -/
structure Minimal (T : Kind) (t : Tree) : Prop where
  valid : t.isValid = true
  contains : t.contains T = true
  stuck : ∀ e ∈ (edits none t).items, ∀ c, e.apply t = .ok c → c.isValid = true →
    c.contains T = false

namespace Minimal

variable {T : Kind} {t : Tree} {fs : List Frame}

theorem isFit (h : Minimal T t) : t.IsFit false := (isValid_iff.1 h.valid).1

theorem clean (h : Minimal T t) : Clean {} t := (isValid_iff.1 h.valid).2

/-- An edit that fits and trims the program loses the node. -/
theorem contains_of_edit (h : Minimal T t) {u v : Tree} (hfs : Positions fs)
    (hu : plugAll fs u = t) (he : ⟨pathOf fs, v⟩ ∈ (edits none t).items)
    (hfit : FitsAt false (holeTypeOf false none fs) v)
    (htrims : Trims (plugAll fs u) (plugAll fs v)) : (plugAll fs v).contains T = false := by
  subst hu
  exact h.stuck _ he _ (apply_plugAll hfs u v) (isValid_of_trims hfs h.valid hfit htrims)

/-- What stands in the hole of frames fits there. -/
theorem fitsAt (h : Minimal T t) {u : Tree} (hfs : Positions fs) (hu : plugAll fs u = t) :
    FitsAt false (holeTypeOf false none fs) u :=
  FitsAt.holeAll fs (show FitsAt false none _ from hu ▸ h.isFit) hfs

/-- The edits of a position are edits of the program. -/
theorem mem_edits (h : Minimal T t) {u : Tree} (hfs : Positions fs) (hu : plugAll fs u = t)
    (hne : u ≠ .absent) {e : Edit} (he : e ∈ (siteOf fs u).edits.items) :
    e ∈ (edits none t).items := by
  subst hu
  exact Whittle.mem_edits hfs h.isFit hne he

/-! ### Lists -/

/-- An item cannot be dropped from a list without losing the node. -/
theorem contains_of_drop (h : Minimal T t) {before after : List Tree} {u : Tree}
    (hfs : Positions fs) (hu : plugAll fs (.list (before ++ u :: after)) = t)
    (howner : ∀ f ∈ fs.head?, f.occupant ≠ some .templateExpression ∧
      f.occupant ≠ some .variableDeclaration) :
    (plugAll fs (.list (before ++ after))).contains T = false := by
  have hmay : mayDrop (fs.head?.bind Frame.occupant) (before ++ u :: after) = true := by
    cases fs with
    | nil => rfl
    | cons f fs =>
      obtain ⟨htemplate, hdeclaration⟩ := howner f rfl
      simp [mayDrop, htemplate, hdeclaration]
  have hedit : ⟨pathOf fs, .list (before ++ after)⟩ ∈ (edits none t).items := by
    refine h.mem_edits hfs hu (by simp) ?_
    rw [siteOf, Site.edits_list, if_pos hmay]
    exact List.mem_map.2 ⟨_, mem_withoutEach.2 ⟨before, u, after, rfl, rfl⟩, rfl⟩
  subst hu
  exact h.stuck _ hedit _ (apply_plugAll hfs _ _) (isValid_dropped hfs h.valid hmay)

/-- A list in which the node occurs has one item only. -/
theorem items_eq (h : Minimal T t) {items : List Tree} {y : Tree} (hfs : Positions fs)
    (ht : plugAll fs (.list items) = t)
    (howner : ∀ f ∈ fs.head?, f.occupant ≠ some .templateExpression ∧
      f.occupant ≠ some .variableDeclaration)
    (hmem : y ∈ items) (hy : y.contains T = true) : items = [y] := by
  obtain ⟨before, after, rfl⟩ := List.append_of_mem hmem
  have hlist : ∀ rest, y ∈ rest → (plugAll fs (.list rest)).contains T = true := by
    intro rest hrest
    refine contains_plugAll fs ?_
    rw [Tree.contains_list, List.any_eq_true]
    exact ⟨y, hrest, hy⟩
  have hbefore : before = [] := by
    obtain rfl | ⟨init, last, rfl⟩ := before.eq_nil_or_concat
    · rfl
    · rw [List.concat_eq_append, List.append_assoc, List.singleton_append] at ht
      have hdrop := h.contains_of_drop hfs ht howner
      rw [hlist _ (by simp)] at hdrop
      cases hdrop
  have hafter : after = [] := by
    cases after with
    | nil => rfl
    | cons a after =>
      have ht' : plugAll fs (.list ((before ++ [y]) ++ a :: after)) = t := by simpa using ht
      have hdrop := h.contains_of_drop hfs ht' howner
      rw [hlist _ (by simp)] at hdrop
      cases hdrop
  rw [hbefore, hafter, List.nil_append]

/-- A list around which the node occurs is empty. -/
theorem items_eq_nil (h : Minimal T t) {items : List Tree} (hfs : Positions fs)
    (ht : plugAll fs (.list items) = t)
    (howner : ∀ f ∈ fs.head?, f.occupant ≠ some .templateExpression ∧
      f.occupant ≠ some .variableDeclaration)
    (hT : OccursAround T fs) : items = [] := by
  cases items with
  | nil => rfl
  | cons a items =>
    rw [← List.nil_append (a :: items)] at ht
    have hdrop := h.contains_of_drop hfs ht howner
    rw [hT] at hdrop
    cases hdrop

/-! ### Nodes -/

/-- An optional field that a node may lack is absent, if the node occurs around it. -/
theorem field_eq_absent (h : Minimal T t) {k : Kind} {before after : List Tree} {u : Tree}
    (hfs : Positions (.field k before after :: fs))
    (ht : plugAll (.field k before after :: fs) u = t) (hlack : k.mayLack before.length = true)
    (hoptional : isOptional (holeTypeOf false none (.field k before after :: fs)) = true)
    (hkept : ∀ v, Kept k (before ++ u :: after) (before ++ v :: after))
    (hT : OccursAround T (.field k before after :: fs)) : u = .absent := by
  have hfit := h.fitsAt hfs ht
  by_cases hu : u = .absent
  · exact hu
  · have hfalse := h.contains_of_edit hfs ht (v := .absent) (h.mem_edits hfs ht hu ?_) ?_ ?_
    · rw [hT] at hfalse
      cases hfalse
    · cases u with
      | node l us =>
        obtain ⟨r, -, hitems⟩ := exists_promotion hfs (ht ▸ h.isFit)
        rw [hitems, if_pos hoptional]
        simp
      | absent => exact absurd rfl hu
      | list items =>
        obtain ⟨type, htype, -⟩ := hfit.items
        rw [htype] at hoptional
        cases hoptional
      | _ =>
        generalize holeTypeOf false none (.field k before after :: fs) = type at hfit
        cases type <;> exact hfit.elim
    · generalize holeTypeOf false none (.field k before after :: fs) = type at hoptional
      cases type with
      | none => cases hoptional
      | some type => exact hoptional
    · refine @Trims.plugAll _ _ (.node (.middle before after (.lack ?_)) (hkept _)) fs ?_
      · rwa [Nat.zero_add]
      · intro f _
        exact Frame.keeps_of_alike rfl

end Minimal

/-! ### Replacements -/

namespace Minimal

variable {T : Kind} {t : Tree} {fs : List Frame}

/-- A replacement that fits and trims the program loses the node. -/
theorem contains_of_replacement (h : Minimal T t) {k : Kind} {fields : List Tree} {v : Tree}
    (hfs : Positions fs) (ht : plugAll fs (.node k fields) = t)
    (hv : v ∈ ((siteOf fs (.node k fields)).replacements k fields).items)
    (hfit : FitsAt false (holeTypeOf false none fs) v)
    (htrims : Trims (plugAll fs (.node k fields)) (plugAll fs v)) :
    (plugAll fs v).contains T = false := by
  refine h.contains_of_edit hfs ht (h.mem_edits hfs ht (by simp) ?_) hfit htrims
  obtain ⟨r, -, hitems⟩ := exists_promotion hfs (ht ▸ h.isFit)
  rw [hitems]
  exact List.mem_append_right _ (List.mem_map_of_mem hv)

/-- What stands where `null` may stand is `null`, if the node occurs around it. -/
theorem eq_null (h : Minimal T t) {k : Kind} {fields : List Tree} (hfs : Positions fs)
    (ht : plugAll fs (.node k fields) = t) (hk : k.isExpression = true)
    (htakes : (holeTypeOf false none fs).any (·.takes .literalNullExpression) = true)
    (hT : OccursAround T fs) : Tree.node k fields = .node .literalNullExpression [] := by
  have hfit := (h.fitsAt hfs ht).isFit
  by_cases hnull : k = .literalNullExpression
  · subst hnull
    rw [(fit_zero rfl rfl).1 hfit]
  · obtain ⟨type, htype, htakes⟩ := (Option.any_eq_true ..).1 htakes
    have hnullFit : FitsAt false (holeTypeOf false none fs) (.node .literalNullExpression []) := by
      rw [htype]
      exact ⟨PositionType.required_of_takes htakes, (fit_zero rfl rfl).2 rfl⟩
    have hreplaceable : k.isReplaceable = true := by
      have hall : Kind.all.all (fun k => !k.isExpression || k.isReplaceable) = true := by
        decide
      simpa [hk] using Kind.forall_of_all hall k
    have hclosed : Closed (.node .literalNullExpression []) := fun _ => rfl
    have hfalse := h.contains_of_replacement hfs ht ?_ hnullFit
      (trims_of_inert hfs hreplaceable rfl (hclosed.asClean _) hnullFit)
    · rw [hT] at hfalse
      cases hfalse
    · rw [siteOf, items_replacements _ hfit]
      refine List.mem_append_left _ (List.mem_append_left _ (List.mem_map.2 ⟨_, ?_, rfl⟩))
      rw [sentinels, List.mem_filter]
      refine ⟨by decide, ?_⟩
      simp [htype, htakes, hnull]

/-- No simplification fits, trims the program and keeps the node. -/
theorem not_simplified (h : Minimal T t) {k : Kind} {fields : List Tree} {v : Tree}
    (hfs : Positions fs) (ht : plugAll fs (.node k fields) = t)
    (hv : v ∈ (simplifications k fields).items) (hfit : FitsAt false (holeTypeOf false none fs) v)
    (htrims : Trims (plugAll fs (.node k fields)) (plugAll fs v))
    (hT : (plugAll fs v).contains T = true) : False := by
  have hk := (h.fitsAt hfs ht).isFit
  have hfalse := h.contains_of_replacement hfs ht ?_ hfit htrims
  · rw [hT] at hfalse
    cases hfalse
  · rw [siteOf, items_replacements _ hk]
    exact List.mem_append_left _ (List.mem_append_right _ hv)

/-- No flag is set that can be cleared so that the program is trimmed and keeps the node. -/
theorem not_flagged (h : Minimal T t) {k : Kind} {before after : List Tree}
    (hfs : Positions fs) (ht : plugAll fs (.node k (before ++ .bool true :: after)) = t)
    (htrims : Trims (plugAll fs (.node k (before ++ .bool true :: after)))
      (plugAll fs (.node k (before ++ .bool false :: after))))
    (hT : (Tree.node k (before ++ .bool false :: after)).contains T = true) : False := by
  have hnode := h.fitsAt hfs ht
  have hfalse := h.contains_of_replacement hfs ht ?_
    (hnode.refill (flagCleared_spec hnode.isFit).1) htrims
  · rw [contains_plugAll fs hT] at hfalse
    cases hfalse
  · rw [siteOf, items_replacements _ hnode.isFit]
    exact List.mem_append_right _ (List.mem_map_of_mem (mem_withFlagCleared_append before after))

end Minimal

end Whittle
