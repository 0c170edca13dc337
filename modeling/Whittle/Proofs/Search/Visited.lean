import Whittle.Proofs.LevelOrder
import Whittle.Proofs.Search.Failures

/-!
# Paths to visited positions

A path is resolved from its end: the type of a field is looked up in the node around it, that of
an item in the node around its list. The walk that enumerates edits goes down from the root and
hands the types on. In a well-typed tree both find the same positions with the same types.
-/

namespace Whittle.Search

open Grammar Whittle.Language

variable {t : Tree} {path : Path}

/-- The path leads to a position that the walk through a tree visits. Absent values are visited,
too. -/
def IsVisited (t : Tree) (path : Path) : Prop :=
  ∃ x ∈ visits t.extent [.root none t], x.path = path

theorem isVisited_iff : IsVisited t path ↔ LeadsToPosition t path := by
  constructor
  · rintro ⟨x, hx, hpath⟩
    obtain ⟨fs, w, hfs, ht, rfl⟩ := mem_visits_root.1 hx
    exact ⟨fs, w, hfs, ht, hpath⟩
  · rintro ⟨fs, w, hfs, ht, hpath⟩
    exact ⟨pendingOf none fs w, mem_visits_root.2 ⟨fs, w, hfs, ht, rfl⟩, hpath⟩

/-- At a visited position the path resolves to the value that the walk finds there, and to the
type that it has been handed. -/
theorem resolve_of_mem_visits (ht : t.IsFit false) {x : Pending}
    (hx : x ∈ visits t.extent [.root none t]) : resolve t x.path = .ok (x.value, x.type) := by
  obtain ⟨fs, w, hfs, rfl, rfl⟩ := mem_visits_root.1 hx
  show resolve (plugAll fs w) (pathOf fs) = .ok (w, (pendingOf none fs w).type)
  obtain ⟨type, hres⟩ := exists_resolve_plugAll hfs ht
  have htype : type = holeTypeOf false none fs := by
    obtain ⟨gs, hgs, hplug, hpath, htype⟩ := exists_frames_of_resolve ht hres
    rw [htype, ← typeAt_pathOf hgs w, ← typeAt_pathOf hfs w, hplug, hpath]
  rw [hres, htype, type_pendingOf]

/-- The candidates below a path of a well-typed tree cannot be told if and only if the walk does
not visit the path. A path that is visited resolves to the value there and to the type that the
walk has been handed for it, and the root has no type. -/
theorem candidates_visited (ht : t.wellTyped = true) (path : Path) :
    ((∃ e : PathError, candidates t path = .error e) ↔ ¬ IsVisited t path) ∧
    (∀ x ∈ visits t.extent [.root none t], x.path = path →
      t.get path = .ok x.value ∧ resolve t path = .ok (x.value, x.type) ∧
        (path = [] → x.type = none)) := by
  have hfit := wellTyped_iff.1 ht
  constructor
  · rw [isVisited_iff, ← resolves_iff hfit]
    simp only [candidates_eq_error]
    cases resolve t path with
    | error e => simp
    | ok r => simp
  · rintro x hx rfl
    have hres := resolve_of_mem_visits hfit hx
    refine ⟨get_of_resolve hres, hres, fun hpath => ?_⟩
    rw [hpath, resolve_nil] at hres
    exact ((Prod.mk.inj (Except.ok.inj hres)).2).symm

/-- A script whose only statement is a return of nothing. -/
def returnScript : Tree :=
  .node .script [.list [], .list [.node .returnStatement [.absent]]]

/-- What the script does not return is visited and has a type, and *true* is no index. -/
theorem candidates_visited_returnScript :
    returnScript.wellTyped = true ∧
    (∃ x ∈ visits returnScript.extent [.root none returnScript],
      x.path = [.field "statements", .index 0, .field "expression"] ∧ x.value = .absent ∧
      isOptional x.type = true ∧
      resolve returnScript [.field "statements", .index 0, .field "expression"]
        = .ok (x.value, x.type)) ∧
    ∃ e : PathError,
      candidates returnScript [.field "statements", .other (.bool true)] = .error e := by
  have ht : returnScript.wellTyped = true := by decide
  refine ⟨ht, ?_, ?_⟩
  · obtain ⟨x, hx, hpath, hvalue, htype⟩ : ∃ x ∈ visits returnScript.extent
        [.root none returnScript],
        x.path = [.field "statements", .index 0, .field "expression"] ∧ x.value = .absent ∧
        isOptional x.type = true := by
      decide
    exact ⟨x, hx, hpath, hvalue, htype, ((candidates_visited ht _).2 x hx hpath).2.1⟩
  · refine (candidates_visited ht _).1.2 ?_
    rintro ⟨x, hx, hpath⟩
    have hnone : ∀ x ∈ visits returnScript.extent [.root none returnScript],
        x.path ≠ [.field "statements", .other (.bool true)] := by
      decide
    exact hnone x hx hpath

end Whittle.Search
