import Mathlib
import Whittle.Series

/-!
# Whole series

A series is whole with a property if it does not break off and all of its items have the
property. Series are put together from whole ones.
-/

namespace Whittle.Series

variable {ε α β : Type}

@[simp] theorem items_cons (a : α) (s : Series ε α) : (cons a s).items = a :: s.items := rfl

@[simp] theorem fault_cons (a : α) (s : Series ε α) : (cons a s).fault = s.fault := rfl

@[simp] theorem items_empty : (empty : Series ε α).items = [] := rfl

@[simp] theorem fault_empty : (empty : Series ε α).fault = none := rfl

@[simp] theorem fault_broken (e : ε) : (broken e : Series ε α).fault = some e := rfl

@[simp] theorem items_broken (e : ε) : (broken e : Series ε α).items = [] := rfl

@[simp] theorem items_ofList (as : List α) : (ofList as : Series ε α).items = as := rfl

@[simp] theorem fault_ofList (as : List α) : (ofList as : Series ε α).fault = none := rfl

theorem eq_ofList {s : Series ε α} (h : s.fault = none) : s = ofList s.items := by
  rw [ofList, ← h]

theorem ofList_append (as bs : List α) :
    (ofList as ++ ofList bs : Series ε α) = ofList (as ++ bs) := rfl

/-- The series does not break off, and all of its items have a property. -/
def Whole (P : α → Prop) (s : Series ε α) : Prop :=
  s.fault = none ∧ ∀ a ∈ s.items, P a

variable {P : α → Prop}

theorem Whole.mono {Q : α → Prop} {s : Series ε α} (h : s.Whole P) (hPQ : ∀ a, P a → Q a) :
    s.Whole Q :=
  ⟨h.1, fun a ha => hPQ a (h.2 a ha)⟩

theorem whole_empty : (empty : Series ε α).Whole P := ⟨rfl, by simp⟩

theorem whole_ofList {as : List α} (h : ∀ a ∈ as, P a) : (ofList as : Series ε α).Whole P :=
  ⟨rfl, h⟩

theorem whole_ofExcept {a : α} (h : P a) : (ofExcept (.ok a) : Series ε α).Whole P :=
  ⟨rfl, by simpa [ofExcept] using h⟩

theorem Whole.append {s t : Series ε α} (hs : s.Whole P) (ht : t.Whole P) :
    (s ++ t).Whole P := by
  refine ⟨by rw [fault_append_of_whole hs.1, ht.1], fun a ha => ?_⟩
  rw [items_append_of_whole hs.1, List.mem_append] at ha
  exact ha.elim (hs.2 a) (ht.2 a)

theorem Whole.map {Q : β → Prop} {s : Series ε α} {f : α → β} (h : s.Whole P)
    (hf : ∀ a, P a → Q (f a)) : (s.map f).Whole Q := by
  refine ⟨h.1, fun b hb => ?_⟩
  obtain ⟨a, ha, rfl⟩ := List.mem_map.1 hb
  exact hf a (h.2 a ha)

theorem whole_mapList {Q : β → Prop} {f : α → Except ε β} {as : List α}
    (h : ∀ a ∈ as, ∃ b, f a = .ok b ∧ Q b) : (mapList f as).Whole Q := by
  induction as with
  | nil => exact whole_empty
  | cons a as ih =>
    obtain ⟨b, hb, hQ⟩ := h a List.mem_cons_self
    obtain ⟨hfault, hitems⟩ := ih fun a' ha' => h a' (List.mem_cons_of_mem _ ha')
    simp only [mapList, hb]
    exact ⟨hfault, List.forall_mem_cons.2 ⟨hQ, hitems⟩⟩

theorem Whole.mapExcept {Q : β → Prop} {s : Series ε α} {f : α → Except ε β} (h : s.Whole P)
    (hf : ∀ a, P a → ∃ b, f a = .ok b ∧ Q b) : (s.mapExcept f).Whole Q :=
  (whole_mapList fun a ha => hf a (h.2 a ha)).append ⟨h.1, by simp⟩

theorem whole_concat {ss : List (Series ε α)} (h : ∀ s ∈ ss, s.Whole P) :
    (concat ss).Whole P := by
  induction ss with
  | nil => exact whole_empty
  | cons s ss ih =>
    exact (h s List.mem_cons_self).append (ih fun s' hs' => h s' (List.mem_cons_of_mem _ hs'))

/-! ## Series that do not break off -/

theorem items_concat {ss : List (Series ε α)} (h : ∀ s ∈ ss, s.fault = none) :
    (concat ss).items = ss.flatMap items := by
  induction ss with
  | nil => rfl
  | cons s ss ih =>
    rw [concat, items_append_of_whole (h s List.mem_cons_self), List.flatMap_cons,
      ih fun s' hs' => h s' (List.mem_cons_of_mem _ hs')]

theorem concat_ofList (ass : List (List α)) :
    concat (ass.map ofList) = (ofList ass.flatten : Series ε α) := by
  induction ass with
  | nil => rfl
  | cons as ass ih => rw [List.map_cons, concat, ih, ofList_append, List.flatten_cons]

theorem mapExcept_ofList {f : α → Except ε β} {as : List α} (h : ∀ a ∈ as, ∃ b, f a = .ok b) :
    ∃ bs, mapExcept f (ofList as) = ofList bs ∧ List.Forall₂ (fun a b => f a = .ok b) as bs := by
  have hlist : ∃ bs, mapList f as = ofList bs ∧
      List.Forall₂ (fun a b => f a = .ok b) as bs := by
    induction as with
    | nil => exact ⟨[], rfl, .nil⟩
    | cons a as ih =>
      obtain ⟨b, hb⟩ := h a List.mem_cons_self
      obtain ⟨bs, hbs, hforall⟩ := ih fun a' ha' => h a' (List.mem_cons_of_mem _ ha')
      refine ⟨b :: bs, ?_, .cons hb hforall⟩
      rw [mapList, hb, hbs]
      rfl
  obtain ⟨bs, hbs, hforall⟩ := hlist
  refine ⟨bs, ?_, hforall⟩
  show mapList f as ++ ofList [] = _
  rw [hbs, ofList_append, List.append_nil]

/-! ## Items of what is put together -/

theorem mem_mapList {f : α → Except ε β} {as : List α} (h : (mapList f as).fault = none)
    {a : α} (ha : a ∈ as) {b : β} (hb : f a = .ok b) : b ∈ (mapList f as).items := by
  induction as with
  | nil => cases ha
  | cons a' as ih =>
    rw [mapList] at h ⊢
    cases hfa : f a' with
    | error e => simp [hfa] at h
    | ok b' =>
      simp only [hfa, fault_cons, items_cons, List.mem_cons] at h ⊢
      rcases List.mem_cons.1 ha with rfl | ha
      · cases hfa.symm.trans hb
        exact .inl rfl
      · exact .inr (ih h ha)

theorem mem_mapExcept {s : Series ε α} {f : α → Except ε β} (h : (s.mapExcept f).fault = none)
    {a : α} (ha : a ∈ s.items) {b : β} (hb : f a = .ok b) : b ∈ (s.mapExcept f).items := by
  have hfault : (mapList f s.items).fault = none := by
    cases hf : (mapList f s.items).fault with
    | none => rfl
    | some e =>
      rw [mapExcept, show (mapList f s.items ++ ⟨[], s.fault⟩ : Series ε β)
        = append (mapList f s.items) ⟨[], s.fault⟩ from rfl, append, hf] at h
      rw [← h, hf]
  rw [mapExcept, items_append_of_whole hfault]
  exact List.mem_append_left _ (mem_mapList hfault ha hb)

theorem mem_concat {ss : List (Series ε α)} (h : ∀ s ∈ ss, s.fault = none) {s : Series ε α}
    (hs : s ∈ ss) {a : α} (ha : a ∈ s.items) : a ∈ (concat ss).items := by
  induction ss with
  | nil => cases hs
  | cons s' ss ih =>
    rw [concat, items_append_of_whole (h s' List.mem_cons_self), List.mem_append]
    rcases List.mem_cons.1 hs with rfl | hs
    · exact .inl ha
    · exact .inr (ih (fun t ht => h t (List.mem_cons_of_mem _ ht)) hs)

/-! ## Items of a series that may break off -/

theorem mem_append {s t : Series ε α} {a : α} (h : a ∈ (s ++ t).items) :
    a ∈ s.items ∨ a ∈ t.items := by
  cases hs : s.fault with
  | none =>
    rw [items_append_of_whole hs] at h
    exact List.mem_append.1 h
  | some e =>
    rw [show s ++ t = append s t from rfl, append, hs] at h
    exact .inl h

theorem exists_of_mem_mapList {f : α → Except ε β} {as : List α} {b : β}
    (h : b ∈ (mapList f as).items) : ∃ a ∈ as, f a = .ok b := by
  induction as with
  | nil => cases h
  | cons a as ih =>
    rw [mapList] at h
    cases hfa : f a with
    | error e =>
      rw [hfa] at h
      cases h
    | ok b' =>
      simp only [hfa, items_cons] at h
      rcases List.mem_cons.1 h with rfl | h
      · exact ⟨a, List.mem_cons_self, hfa⟩
      · obtain ⟨a', ha', hb⟩ := ih h
        exact ⟨a', List.mem_cons_of_mem _ ha', hb⟩

theorem exists_of_mem_mapExcept {s : Series ε α} {f : α → Except ε β} {b : β}
    (h : b ∈ (s.mapExcept f).items) : ∃ a ∈ s.items, f a = .ok b :=
  (mem_append h).elim exists_of_mem_mapList fun h => by cases h

theorem exists_of_mem_concat {ss : List (Series ε α)} {a : α} (h : a ∈ (concat ss).items) :
    ∃ s ∈ ss, a ∈ s.items := by
  induction ss with
  | nil => cases h
  | cons s ss ih =>
    rcases mem_append h with h | h
    · exact ⟨s, List.mem_cons_self, h⟩
    · obtain ⟨s', hs', ha⟩ := ih h
      exact ⟨s', List.mem_cons_of_mem _ hs', ha⟩

end Whittle.Series
