import Mathlib.Data.List.Basic
import Whittle.Grammar.Table

/-!
# Entries

Entries by name. If no name is given twice, putting entries together changes nothing, and the
value of a name does not depend on the order of the entries.
-/

namespace Whittle.Grammar.Entries

variable {κ β : Type} [DecidableEq κ]

theorem put_of_notMem {key : κ} {value : β} {es : Entries κ β} (h : key ∉ es.map (·.1)) :
    es.put key value = es ++ [(key, value)] := by
  induction es with
  | nil => rfl
  | cons e es ih =>
    rw [List.map_cons, List.mem_cons, not_or] at h
    rw [put, if_neg (Ne.symm h.1), ih h.2, List.cons_append]

/-- Entries stay as they are if no name is given twice. -/
theorem ofList_of_nodup {es : List (κ × β)} (h : (es.map (·.1)).Nodup) : ofList es = es := by
  suffices haux : ∀ acc : Entries κ β, ((acc ++ es).map (·.1)).Nodup →
      es.foldl (fun acc e => acc.put e.1 e.2) acc = acc ++ es from haux [] h
  induction es with
  | nil => simp
  | cons e es ih =>
    intro acc hacc
    have hnew : e.1 ∉ acc.map (·.1) := by
      rw [List.map_append, List.map_cons, List.nodup_append] at hacc
      exact fun hmem => hacc.2.2 _ hmem _ List.mem_cons_self rfl
    rw [List.append_cons] at hacc
    rw [List.foldl_cons, put_of_notMem hnew, ih ?_ _ hacc, List.append_assoc, List.singleton_append]
    exact (List.nodup_cons.1 h).2

theorem has_iff {key : κ} {es : Entries κ β} : es.has key = true ↔ key ∈ es.map (·.1) := by
  induction es with
  | nil => simp [has, get?]
  | cons e es ih =>
    rw [has] at ih
    by_cases heq : e.1 = key
    · simp [has, get?, heq]
    · simp [has, get?, heq, Ne.symm heq, ih]

/-- The values of all names, in order. -/
theorem filterMap_get?_zip {names : List κ} (hnodup : names.Nodup) {vs : List β}
    (hlen : vs.length = names.length) :
    names.filterMap (fun n => get? n (names.zip vs)) = vs := by
  induction names generalizing vs with
  | nil => exact (List.eq_nil_of_length_eq_zero hlen).symm
  | cons n ns ih =>
    cases vs with
    | nil => cases hlen
    | cons v vs =>
      obtain ⟨hn, hns⟩ := List.nodup_cons.1 hnodup
      have hrest : ∀ m ∈ ns, get? m ((n, v) :: ns.zip vs) = get? m (ns.zip vs) := fun m hm => by
        rw [get?, if_neg]
        rintro rfl
        exact hn hm
      rw [List.zip_cons_cons, List.filterMap_cons, get?, if_pos rfl, List.filterMap_congr hrest,
        ih hns (Nat.succ.inj hlen)]

/-! ## Where entries come from -/

theorem mem_of_get? {key : κ} {value : β} {es : Entries κ β} (h : get? key es = some value) :
    (key, value) ∈ es := by
  induction es with
  | nil => cases h
  | cons e es ih =>
    rw [get?] at h
    split at h
    · rename_i heq
      cases h
      exact List.mem_cons.2 (.inl (Prod.ext heq.symm rfl))
    · exact List.mem_cons_of_mem _ (ih h)

theorem mem_put {key : κ} {value : β} {es : Entries κ β} {e : κ × β}
    (h : e ∈ es.put key value) : e = (key, value) ∨ e ∈ es := by
  induction es with
  | nil => exact .inl (List.mem_singleton.1 h)
  | cons d es ih =>
    rw [put] at h
    split at h
    · rcases List.mem_cons.1 h with heq | hmem
      · exact .inl heq
      · exact .inr (List.mem_cons_of_mem _ hmem)
    · rcases List.mem_cons.1 h with heq | hmem
      · exact .inr (List.mem_cons.2 (.inl heq))
      · exact (ih hmem).imp_right (List.mem_cons_of_mem _)

/-- Entries that are put together are all given. -/
theorem mem_of_mem_ofList {es : List (κ × β)} {e : κ × β} (h : e ∈ ofList es) : e ∈ es := by
  suffices haux : ∀ acc : Entries κ β,
      e ∈ es.foldl (fun acc e => acc.put e.1 e.2) acc → e ∈ acc ∨ e ∈ es from
    (haux [] h).resolve_left List.not_mem_nil
  clear h
  induction es with
  | nil => exact fun acc h => .inl h
  | cons d es ih =>
    intro acc h
    rcases ih _ h with hput | hmem
    · rcases mem_put hput with heq | hacc
      · exact .inr (List.mem_cons.2 (.inl heq))
      · exact .inl hacc
    · exact .inr (List.mem_cons_of_mem _ hmem)

/-! ## Order -/

theorem get?_eq_some_iff {key : κ} {value : β} {es : Entries κ β}
    (hnodup : (es.map (·.1)).Nodup) : get? key es = some value ↔ (key, value) ∈ es := by
  induction es with
  | nil => simp [get?]
  | cons e es ih =>
    obtain ⟨hnew, hrest⟩ := List.nodup_cons.1 hnodup
    rw [get?, List.mem_cons]
    split
    · rename_i heq
      subst heq
      have hnot : (e.1, value) ∉ es := fun hmem => hnew (List.mem_map.2 ⟨_, hmem, rfl⟩)
      simp [hnot, Prod.ext_iff, eq_comm]
    · rename_i hne
      rw [ih hrest, or_iff_right]
      rintro rfl
      exact hne rfl

theorem get?_perm (key : κ) {es es' : Entries κ β} (hnodup : (es.map (·.1)).Nodup)
    (hperm : es.Perm es') : get? key es = get? key es' := by
  refine Option.ext fun value => ?_
  rw [get?_eq_some_iff hnodup, get?_eq_some_iff ((hperm.map _).nodup_iff.1 hnodup),
    hperm.mem_iff]

end Whittle.Grammar.Entries
