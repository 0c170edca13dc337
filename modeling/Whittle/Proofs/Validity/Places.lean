import Mathlib.Data.List.Nodup
import Mathlib.Data.List.Perm.Subperm
import Whittle.Path

/-!
# Values at paths

A list of names is gathered from a tree, each from a path of its own. None of these paths leads
through another, so the lists that are gathered at them can be put together, and a name that is
twice in a list stands at two paths.
-/

namespace Whittle

/-- Neither path leads through the other. -/
def Path.Apart (p q : Path) : Prop := ¬ p <+: q ∧ ¬ q <+: p

/-- The values are those at some paths, none of which leads through another. -/
def Places {α : Type} (xs : List α) (At : Path → α → Prop) : Prop :=
  ∃ ps : List (Path × α), ps.map (·.2) = xs ∧ ps.Pairwise (fun a b => a.1.Apart b.1) ∧
    ∀ p x, (p, x) ∈ ps ↔ At p x

variable {α β : Type} {p q : Path}

namespace Path.Apart

theorem symm (h : p.Apart q) : q.Apart p := And.symm h

theorem ne (h : p.Apart q) : p ≠ q := by
  rintro rfl
  exact h.1 (List.prefix_refl p)

/-- Paths that are apart stay apart. -/
theorem append (h : p.Apart q) (r s : Path) : Path.Apart (p ++ r) (q ++ s) := by
  have hp := List.prefix_append p r
  have hq := List.prefix_append q s
  constructor
  · intro hprefix
    exact (List.prefix_or_prefix_of_prefix (hp.trans hprefix) hq).elim h.1 h.2
  · intro hprefix
    exact (List.prefix_or_prefix_of_prefix hp (hq.trans hprefix)).elim h.1 h.2

/-- Paths with different first steps are apart. -/
theorem of_step_ne {s s' : Step} (h : s ≠ s') (p q : Path) : Path.Apart (s :: p) (s' :: q) :=
  ⟨fun hprefix => h (List.cons_prefix_cons.1 hprefix).1,
    fun hprefix => h (List.cons_prefix_cons.1 hprefix).1.symm⟩

theorem append_left (r : Path) (h : p.Apart q) : Path.Apart (r ++ p) (r ++ q) :=
  ⟨fun hprefix => h.1 ((List.prefix_append_right_inj r).1 hprefix),
    fun hprefix => h.2 ((List.prefix_append_right_inj r).1 hprefix)⟩

end Path.Apart

namespace Places

variable {xs : List α} {At : Path → α → Prop}

theorem mem (h : Places xs At) {x : α} : x ∈ xs ↔ ∃ p, At p x := by
  obtain ⟨ps, rfl, -, hmem⟩ := h
  simp [← hmem]

theorem congr {At' : Path → α → Prop} (h : Places xs At) (hat : ∀ p x, At p x ↔ At' p x) :
    Places xs At' := by
  obtain ⟨ps, hps, happart, hmem⟩ := h
  exact ⟨ps, hps, happart, fun p x => (hmem p x).trans (hat p x)⟩

/-- A value that is twice among some stands at two paths. -/
theorem two_le_count [DecidableEq α] (h : Places xs At) {x : α} :
    2 ≤ xs.count x ↔ ∃ p q, p ≠ q ∧ At p x ∧ At q x := by
  obtain ⟨ps, rfl, hapart, hmem⟩ := h
  simp only [← hmem]
  constructor
  · intro hcount
    obtain ⟨es, hsub, hes⟩ := List.sublist_map_iff.1 (List.replicate_sublist_iff.2 hcount)
    obtain ⟨⟨p, _⟩, _, rfl, rfl, hes⟩ := List.map_eq_cons_iff.1 hes.symm
    obtain ⟨⟨q, _⟩, _, rfl, rfl, hes⟩ := List.map_eq_cons_iff.1 hes
    obtain rfl := List.map_eq_nil_iff.1 hes
    have hpq := List.rel_of_pairwise_cons (hapart.sublist hsub) List.mem_cons_self
    exact ⟨p, q, hpq.ne, hsub.subset List.mem_cons_self, hsub.subset (by simp)⟩
  · rintro ⟨p, q, hne, hp, hq⟩
    have hnodup : [(p, x), (q, x)].Nodup := by simp [hne]
    have hsubset : [(p, x), (q, x)] ⊆ ps := by simp [hp, hq]
    obtain ⟨es, hperm, hsub⟩ := hnodup.subperm hsubset
    have hcount := (hperm.map (·.2)).count_eq x
    have hle := (hsub.map (·.2)).count_le x
    simp only [List.map_cons, List.map_nil, List.count_cons_self, List.count_nil] at hcount
    omega

/-! ## Lists that are put together -/

theorem nil : Places ([] : List α) fun _ _ => False := ⟨[], by simp⟩

theorem single (p : Path) (x : α) : Places [x] fun q y => q = p ∧ y = x :=
  ⟨[(p, x)], by simp⟩

/-- The items of a list stand at their indices. -/
theorem items (xs : List α) : Places xs fun p x => ∃ i : Nat, p = [.index i] ∧ xs[i]? = some x := by
  refine ⟨xs.zipIdx.map fun e => ([.index e.2], e.1), ?_, ?_, ?_⟩
  · simp [List.map_map, Function.comp_def]
  · rw [List.pairwise_map, List.pairwise_iff_getElem]
    intro i j hi hj hlt
    refine Path.Apart.of_step_ne ?_ [] []
    simp only [List.getElem_zipIdx, ne_eq, Step.index.injEq]
    omega
  · intro p x
    simp only [List.mem_map, Prod.exists, List.mem_zipIdx_iff_getElem?, Prod.mk.injEq]
    constructor
    · rintro ⟨y, i, hi, rfl, rfl⟩
      exact ⟨i, rfl, hi⟩
    · rintro ⟨i, rfl, hi⟩
      exact ⟨x, i, hi, rfl, rfl⟩

/-- The values stand at the ends of longer paths. -/
theorem under (h : Places xs At) (r : Path) :
    Places xs fun p x => ∃ q, p = r ++ q ∧ At q x := by
  obtain ⟨ps, rfl, hapart, hmem⟩ := h
  refine ⟨ps.map fun e => (r ++ e.1, e.2), ?_, ?_, ?_⟩
  · simp [List.map_map, Function.comp_def]
  · rw [List.pairwise_map]
    exact hapart.imp fun h => h.append_left r
  · intro p x
    simp only [List.mem_map, Prod.exists, Prod.mk.injEq, ← hmem]
    constructor
    · rintro ⟨q, y, hq, rfl, rfl⟩
      exact ⟨q, rfl, hq⟩
    · rintro ⟨q, rfl, hq⟩
      exact ⟨q, x, hq, rfl, rfl⟩

theorem append {ys : List α} {At' : Path → α → Prop} (h : Places xs At) (h' : Places ys At')
    (hapart : ∀ p x q y, At p x → At' q y → p.Apart q) :
    Places (xs ++ ys) fun p x => At p x ∨ At' p x := by
  obtain ⟨ps, rfl, hps, hmem⟩ := h
  obtain ⟨qs, rfl, hqs, hmem'⟩ := h'
  refine ⟨ps ++ qs, List.map_append, List.pairwise_append.2 ⟨hps, hqs, ?_⟩, ?_⟩
  · rintro ⟨p, x⟩ hp ⟨q, y⟩ hq
    exact hapart p x q y ((hmem p x).1 hp) ((hmem' q y).1 hq)
  · intro p x
    rw [List.mem_append, hmem, hmem']

/-- Every value yields a list, whose values stand at paths from where it stands. -/
theorem mapM {f : α → Option (List β)} {At' : α → Path → β → Prop} {yss : List (List β)}
    (h : Places xs At) (hyss : xs.mapM f = some yss)
    (hf : ∀ x ∈ xs, ∀ ys, f x = some ys → Places ys (At' x)) :
    Places yss.flatten fun p y => ∃ q r x, p = q ++ r ∧ At q x ∧ At' x r y := by
  obtain ⟨ps, rfl, hapart, hmem⟩ := h
  suffices hps : Places yss.flatten fun p y => ∃ e ∈ ps, ∃ r, p = e.1 ++ r ∧ At' e.2 r y by
    refine hps.congr fun p y => ⟨?_, ?_⟩
    · rintro ⟨⟨q, x⟩, he, r, rfl, hr⟩
      exact ⟨q, r, x, rfl, (hmem q x).1 he, hr⟩
    · rintro ⟨q, r, x, rfl, hq, hr⟩
      exact ⟨(q, x), (hmem q x).2 hq, r, rfl, hr⟩
  clear hmem
  induction ps generalizing yss with
  | nil =>
    cases hyss
    exact nil.congr (by simp)
  | cons e ps ih =>
    rw [List.map_cons, List.mapM_cons] at hyss
    obtain ⟨ys, hys, hyss⟩ := Option.bind_eq_some_iff.1 hyss
    obtain ⟨rest, hrest, hyss⟩ := Option.bind_eq_some_iff.1 hyss
    cases hyss
    obtain ⟨he, hapart⟩ := List.pairwise_cons.1 hapart
    have hhere := (hf e.2 List.mem_cons_self ys hys).under e.1
    have hthere := ih hrest (fun x hx => hf x (List.mem_cons_of_mem _ hx)) hapart
    refine (hhere.append hthere ?_).congr fun p y => by simp
    rintro p x q y ⟨r, rfl, -⟩ ⟨e', he', r', rfl, -⟩
    exact (he e' he').append r r'

end Places

end Whittle
