import Mathlib
import Whittle.Search.Candidates

/-!
# Paths as lenses

Reading and replacing at a path fit together: what has been put is what is read, putting
back what was read changes nothing, and of two values put in turn the later one stays.
Replacing below a position keeps what can be seen of it from outside, so a path that leads
to a position keeps leading to a position of the same type.
-/

namespace Whittle

namespace Tree

/-! ## One step -/

@[simp] theorem parts_withParts_list (items ps : List Tree) :
    ((Tree.list items).withParts ps).parts = ps := rfl

@[simp] theorem parts_withParts_node (k : Kind) (fields ps : List Tree) :
    ((Tree.node k fields).withParts ps).parts = ps := rfl

/-- A step that resolves leads to one of the parts. -/
theorem lt_of_place {t : Tree} {s : Step} {i : Nat} (h : t.place s = .ok i) :
    i < t.parts.length := by
  cases t with
  | list items =>
    cases s with
    | index j =>
      simp only [place] at h
      split at h
      · rename_i hj
        cases h
        simp only [parts]
        omega
      · cases h
    | _ => simp [place] at h
  | node k fields =>
    cases s with
    | field name =>
      simp only [place] at h
      split at h
      · split at h
        · cases h; assumption
        · cases h
      · cases h
    | _ => simp [place] at h
  | _ => simp [place] at h

/-- Where a step leads depends on the number of parts only. -/
theorem place_withParts {t : Tree} {ps : List Tree} (h : ps.length = t.parts.length)
    (s : Step) : (t.withParts ps).place s = t.place s := by
  cases t with
  | list items =>
    have h : ps.length = items.length := h
    cases s <;> simp [withParts, place, h]
  | node k fields =>
    have h : ps.length = fields.length := h
    cases s <;> simp [withParts, place, h]
  | _ => rfl

theorem parts_withParts {t : Tree} {ps : List Tree} (h : ps.length = t.parts.length) :
    (t.withParts ps).parts = ps := by
  cases t with
  | list items => rfl
  | node k fields => rfl
  | _ => exact (List.length_eq_zero_iff.1 h).symm

theorem withParts_withParts (t : Tree) (ps qs : List Tree) :
    (t.withParts ps).withParts qs = t.withParts qs := by
  cases t <;> rfl

theorem withParts_parts (t : Tree) : t.withParts t.parts = t := by
  cases t <;> rfl

/-- A child is the part at the place of the step. -/
theorem childAt_eq_ok {t : Tree} {s : Step} {c : Tree} :
    t.childAt s = .ok c ↔ ∃ i, t.place s = .ok i ∧ t.parts[i]? = some c := by
  unfold childAt child
  cases h : t.place s with
  | error f => simp [bind, Except.bind, Except.mapError]
  | ok i =>
    have hi := lt_of_place h
    simp [bind, Except.bind, Except.mapError, pure, Except.pure, hi]

theorem setChild_of_place {t : Tree} {s : Step} {i : Nat} (h : t.place s = .ok i)
    (v : Tree) : t.setChild s v = t.withParts (t.parts.set i v) := by
  simp [setChild, h]

theorem place_setChild (t : Tree) (s : Step) (v : Tree) (s' : Step) :
    (t.setChild s v).place s' = t.place s' := by
  cases h : t.place s with
  | error f => simp [setChild, h]
  | ok i => rw [setChild_of_place h, place_withParts (by simp)]

theorem childAt_setChild {t : Tree} {s : Step} {c : Tree} (h : t.childAt s = .ok c)
    (v : Tree) : (t.setChild s v).childAt s = .ok v := by
  obtain ⟨i, hi, -⟩ := childAt_eq_ok.1 h
  refine childAt_eq_ok.2 ⟨i, (place_setChild ..).trans hi, ?_⟩
  have hlt := lt_of_place hi
  rw [setChild_of_place hi, parts_withParts (by simp)]
  simp [hlt]

theorem setChild_setChild (t : Tree) (s : Step) (v w : Tree) :
    (t.setChild s v).setChild s w = t.setChild s w := by
  cases h : t.place s with
  | error f => simp [setChild, h]
  | ok i =>
    rw [setChild_of_place ((place_setChild ..).trans h), setChild_of_place h,
      setChild_of_place h, withParts_withParts, parts_withParts (by simp)]
    simp

theorem setChild_childAt {t : Tree} {s : Step} {c : Tree} (h : t.childAt s = .ok c) :
    t.setChild s c = t := by
  obtain ⟨i, hi, hc⟩ := childAt_eq_ok.1 h
  rw [setChild_of_place hi]
  obtain ⟨hlt, rfl⟩ := List.getElem?_eq_some_iff.1 hc
  rw [List.set_getElem_self, withParts_parts]

/-! ## Paths -/

theorem get_cons {t c : Tree} {s : Step} (h : t.childAt s = .ok c) (p : Path) :
    t.get (s :: p) = (c.get p).mapError (·.under s) := by
  simp [get, h, bind, Except.bind]

theorem replace_cons {t c : Tree} {s : Step} (h : t.childAt s = .ok c) (p : Path)
    (v : Tree) :
    t.replace (s :: p) v = ((c.replace p v).map (t.setChild s)).mapError (·.under s) := by
  simp only [replace, h, bind, Except.bind]
  cases c.replace p v <;> rfl

theorem get_cons_eq_ok {t u : Tree} {s : Step} {p : Path} :
    t.get (s :: p) = .ok u ↔ ∃ c, t.childAt s = .ok c ∧ c.get p = .ok u := by
  cases h : t.childAt s with
  | error e => simp [get, h, bind, Except.bind]
  | ok c =>
    rw [get_cons h]
    cases h' : c.get p <;> simp [Except.mapError, h']

theorem replace_cons_eq_ok {t t' : Tree} {s : Step} {p : Path} {v : Tree} :
    t.replace (s :: p) v = .ok t' ↔
      ∃ c c', t.childAt s = .ok c ∧ c.replace p v = .ok c' ∧ t' = t.setChild s c' := by
  cases h : t.childAt s with
  | error e => simp [replace, h, bind, Except.bind]
  | ok c =>
    rw [replace_cons h]
    cases h' : c.replace p v <;> simp [Except.mapError, Except.map, h', eq_comm (b := t')]

/-- What has been put at a path is read there. -/
theorem get_replace {t t' v : Tree} {p : Path} (h : t.replace p v = .ok t') :
    t'.get p = .ok v := by
  induction p generalizing t t' with
  | nil => cases h; rfl
  | cons s p ih =>
    obtain ⟨c, c', hc, hr, rfl⟩ := replace_cons_eq_ok.1 h
    exact get_cons_eq_ok.2 ⟨c', childAt_setChild hc c', ih hr⟩

/-- Putting back what was read changes nothing. -/
theorem replace_get {t u : Tree} {p : Path} (h : t.get p = .ok u) :
    t.replace p u = .ok t := by
  induction p generalizing t with
  | nil => cases h; rfl
  | cons s p ih =>
    obtain ⟨c, hc, hg⟩ := get_cons_eq_ok.1 h
    exact replace_cons_eq_ok.2 ⟨c, c, hc, ih hg, (setChild_childAt hc).symm⟩

/-- Where a value can be read another one can be put. -/
theorem exists_replace {t u : Tree} {p : Path} (h : t.get p = .ok u) (v : Tree) :
    ∃ t', t.replace p v = .ok t' := by
  induction p generalizing t with
  | nil => exact ⟨v, rfl⟩
  | cons s p ih =>
    obtain ⟨c, hc, hg⟩ := get_cons_eq_ok.1 h
    obtain ⟨c', hr⟩ := ih hg
    exact ⟨_, replace_cons_eq_ok.2 ⟨c, c', hc, hr, rfl⟩⟩

/-- Of two values put at a path the later one stays. -/
theorem replace_replace {t t' v : Tree} {p : Path} (h : t.replace p v = .ok t') {w t'' : Tree}
    (h' : t.replace p w = .ok t'') : t'.replace p w = .ok t'' := by
  induction p generalizing t t' t'' with
  | nil => exact h'
  | cons s p ih =>
    obtain ⟨c, c', hc, hr, rfl⟩ := replace_cons_eq_ok.1 h
    obtain ⟨d, d', hd, hr', rfl⟩ := replace_cons_eq_ok.1 h'
    cases hc.symm.trans hd
    refine replace_cons_eq_ok.2 ⟨c', d', childAt_setChild hc c', ih hr hr', ?_⟩
    rw [setChild_setChild]

/-! ## Paths in two parts -/

theorem get_append_eq_ok {t w : Tree} {p q : Path} :
    t.get (p ++ q) = .ok w ↔ ∃ u, t.get p = .ok u ∧ u.get q = .ok w := by
  induction p generalizing t with
  | nil =>
    constructor
    · exact fun h => ⟨t, rfl, h⟩
    · rintro ⟨u, hu, h⟩
      cases hu
      exact h
  | cons s p ih =>
    rw [List.cons_append, get_cons_eq_ok]
    constructor
    · rintro ⟨c, hc, h⟩
      obtain ⟨u, hu, h⟩ := ih.1 h
      exact ⟨u, get_cons_eq_ok.2 ⟨c, hc, hu⟩, h⟩
    · rintro ⟨u, hu, h⟩
      obtain ⟨c, hc, hu⟩ := get_cons_eq_ok.1 hu
      exact ⟨c, hc, ih.2 ⟨u, hu, h⟩⟩

theorem get_append {t u w : Tree} {p q : Path} (h : t.get p = .ok u) (h' : u.get q = .ok w) :
    t.get (p ++ q) = .ok w :=
  get_append_eq_ok.2 ⟨u, h, h'⟩

theorem replace_append {t t' u u' v : Tree} {p q : Path} (h : t.get p = .ok u)
    (h' : u.replace q v = .ok u') (h'' : t.replace p u' = .ok t') :
    t.replace (p ++ q) v = .ok t' := by
  induction p generalizing t t' with
  | nil => cases h; cases h''; exact h'
  | cons s p ih =>
    obtain ⟨c, hc, hg⟩ := get_cons_eq_ok.1 h
    obtain ⟨d, d', hd, hr, rfl⟩ := replace_cons_eq_ok.1 h''
    cases hc.symm.trans hd
    exact replace_cons_eq_ok.2 ⟨c, d', hc, ih hg hr, rfl⟩

/-- A replacement far down is a replacement of what the first part of the path leads to. -/
theorem replace_append_inv {t t' v : Tree} {p q : Path} (h : t.replace (p ++ q) v = .ok t') :
    ∃ u u', t.get p = .ok u ∧ u.replace q v = .ok u' ∧ t'.get p = .ok u' := by
  induction p generalizing t t' with
  | nil => exact ⟨t, t', rfl, h, rfl⟩
  | cons s p ih =>
    obtain ⟨c, c', hc, hr, rfl⟩ := replace_cons_eq_ok.1 h
    obtain ⟨u, u', hu, hur, hu'⟩ := ih hr
    exact ⟨u, u', get_cons_eq_ok.2 ⟨c, hc, hu⟩, hur,
      get_cons_eq_ok.2 ⟨c', childAt_setChild hc c', hu'⟩⟩

end Tree

/-! ## The type of a position -/

namespace Search

/-- What a path's resolution reads of the values on the way: whether they are lists, and
the kinds of the nodes. -/
def outline : Tree → Option (Option Kind)
  | .list _ => some none
  | .node k _ => some (some k)
  | _ => none

theorem outline_setChild (t : Tree) (s : Step) (v : Tree) :
    outline (t.setChild s v) = outline t := by
  cases h : t.place s with
  | error f => simp [Tree.setChild, h]
  | ok i => rw [Tree.setChild_of_place h]; cases t <;> rfl

theorem outline_replace {t t' v : Tree} {p : Path} (hp : p ≠ [])
    (h : t.replace p v = .ok t') : outline t' = outline t := by
  cases p with
  | nil => exact absurd rfl hp
  | cons s p =>
    obtain ⟨c, c', -, -, rfl⟩ := Tree.replace_cons_eq_ok.1 h
    exact outline_setChild ..

theorem declaredType_congr {t t' : Tree} (h : outline t' = outline t) (s : Step) (p : Path) :
    declaredType t' s p = declaredType t s p := by
  cases t <;> cases t' <;> simp only [outline, Option.some.injEq, reduceCtorEq] at h <;>
    first | rfl | (subst h; cases s <;> rfl)

/-- The type that a path's resolution finds, from the values on the last two steps. -/
def positionType (owner : Except PathError Tree) (parent : Tree) (last : Step) (path : Path) :
    Except PathError (Option Position) :=
  match outline parent, path.dropLast.getLast? with
  | some none, none => .ok none
  | some none, some field => do return wrappedType? (← declaredType (← owner) field path)
  | _, _ => do return some (← declaredType parent last path)

theorem resolve_nil (t : Tree) : resolve t [] = .ok (t, none) := rfl

theorem resolve_concat_eq_ok {t u : Tree} {p : Path} {s : Step} {type : Option Position} :
    resolve t (p ++ [s]) = .ok (u, type) ↔
      t.get (p ++ [s]) = .ok u ∧ ∃ parent, t.get p = .ok parent ∧
        positionType (t.get p.dropLast) parent s (p ++ [s]) = .ok type := by
  simp only [resolve, positionType, List.getLast?_append, List.getLast?_singleton,
    Option.some_or, List.dropLast_concat, bind, Except.bind, pure, Except.pure]
  cases t.get (p ++ [s]) with
  | error e => simp
  | ok target =>
    cases t.get p with
    | error e => simp
    | ok parent =>
      simp only [Except.ok.injEq, exists_eq_left']
      cases hlast : p.getLast? with
      | none =>
        cases parent with
        | list items => simp [outline]
        | _ => simp only [outline]; cases declaredType _ s (p ++ [s]) <;> simp
      | some field =>
        cases parent with
        | list items =>
          simp only [outline]
          cases t.get p.dropLast with
          | error e => simp
          | ok owner => cases h : declaredType owner field (p ++ [s]) <;> simp [h]
        | _ => simp only [outline]; cases declaredType _ s (p ++ [s]) <;> simp

/-- A value put at a position stands at a position of the same type. -/
theorem resolve_replace {t t' u v : Tree} {p : Path} {type : Option Position}
    (h : resolve t p = .ok (u, type)) (hr : t.replace p v = .ok t') :
    resolve t' p = .ok (v, type) := by
  obtain rfl | ⟨q, s, rfl⟩ := p.eq_nil_or_concat
  · cases h; cases hr; rfl
  · rw [List.concat_eq_append] at *
    obtain ⟨-, parent, hparent, htype⟩ := resolve_concat_eq_ok.1 h
    refine resolve_concat_eq_ok.2 ⟨Tree.get_replace hr, ?_⟩
    obtain ⟨_, parent', hp, hrp, hparent'⟩ := Tree.replace_append_inv hr
    cases hparent.symm.trans hp
    refine ⟨parent', hparent', ?_⟩
    have hout : outline parent' = outline parent := outline_replace (by simp) hrp
    simp only [positionType, List.dropLast_concat] at htype ⊢
    rw [hout, declaredType_congr hout]
    obtain rfl | ⟨q', s', rfl⟩ := q.eq_nil_or_concat
    · simp only [List.getLast?_nil] at htype ⊢
      split at htype
      · exact htype
      · rename_i h; simp at h
      · exact htype
    · rw [List.concat_eq_append] at *
      rw [List.append_assoc] at hr
      obtain ⟨owner, owner', ho, hro, ho'⟩ := Tree.replace_append_inv hr
      have hown : outline owner' = outline owner := outline_replace (by simp) hro
      simp only [List.dropLast_concat, ho, ho', bind, Except.bind] at htype ⊢
      simpa only [declaredType_congr hown] using htype

/-- What resolves can be read. -/
theorem get_of_resolve {t u : Tree} {p : Path} {type : Option Position}
    (h : resolve t p = .ok (u, type)) : t.get p = .ok u := by
  obtain rfl | ⟨q, s, rfl⟩ := p.eq_nil_or_concat
  · cases h; rfl
  · rw [List.concat_eq_append] at *
    exact (resolve_concat_eq_ok.1 h).1

end Search

end Whittle
