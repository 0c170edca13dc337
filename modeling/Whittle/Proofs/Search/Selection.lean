import Mathlib
import Whittle.Proofs.Search.Feeds

/-!
# What a window selects

Reordering a list within a window is a selection. The places of the list stand for its
items. Whenever an item is yielded, a certain number of items has been taken from the list,
and the item is the least of those that were taken and are still there: the least by its
key and, of equal keys, by its place. The window holds just these places, in this order;
an item that arrives and an item that leaves keep it so.

From the law of the selection the rest follows: nothing is lost, items of equal keys keep
their order, no item is yielded long before its place, and a window that holds the whole
list sorts it.
-/

namespace Whittle.Search

variable {ε α κ : Type} [LinearOrder κ] (key : α → κ) (as : List α)

/-- The rank of an item of a list: its key, then its place. -/
def rank (i : Fin as.length) : κ ×ₗ Fin as.length := toLex (key as[i], i)

theorem rank_le_iff (i j : Fin as.length) :
    rank key as i ≤ rank key as j ↔
      key as[i] < key as[j] ∨ key as[i] = key as[j] ∧ i ≤ j :=
  Prod.Lex.toLex_le_toLex

omit [LinearOrder κ] in
theorem rank_injective : Function.Injective (rank key as) := by
  intro i j h
  exact congrArg (fun r => (ofLex r).2) h

/-- One item is of no higher rank than another. -/
def RankLE (i j : Fin as.length) : Prop := rank key as i ≤ rank key as j

instance : DecidableRel (RankLE key as) := fun i j =>
  inferInstanceAs (Decidable (rank key as i ≤ rank key as j))

instance : IsTrans (Fin as.length) (RankLE key as) := ⟨fun _ _ _ => le_trans⟩

instance : Std.Total (RankLE key as) := ⟨fun _ _ => le_total ..⟩

instance : Std.Antisymm (RankLE key as) :=
  ⟨fun _ _ hij hji => rank_injective key as (le_antisymm hij hji)⟩

/-- Of the first `taken` items of a list, without those that have gone, the one at place
`i` is the least. -/
structure IsNext (taken : Nat) (gone : List (Fin as.length)) (i : Fin as.length) : Prop where
  arrived : i.val < taken
  waiting : i ∉ gone
  least : ∀ j : Fin as.length, j.val < taken → j ∉ gone → rank key as i ≤ rank key as j

/-- The queue holds the places of the first `taken` items, without those that have gone, by
rank. -/
structure IsQueue (taken : Nat) (gone queue : List (Fin as.length)) : Prop where
  sorted : queue.Pairwise fun i j => rank key as i < rank key as j
  mem : ∀ i, i ∈ queue ↔ i.val < taken ∧ i ∉ gone

/-- What waits in the window if these are the places. -/
def entries (queue : List (Fin as.length)) : Waiting κ α :=
  queue.map fun i => (key as[i], as[i])

/-- A place put into a queue by its rank. -/
def enqueue (i : Fin as.length) (queue : List (Fin as.length)) : List (Fin as.length) :=
  queue.orderedInsert (RankLE key as) i

theorem enqueue_perm (i : Fin as.length) (queue : List (Fin as.length)) :
    (enqueue key as i queue).Perm (i :: queue) :=
  List.perm_orderedInsert _ i queue

/-! ## One item arrives, one item leaves -/

section Steps

variable {key as} {taken : Nat} {gone queue : List (Fin as.length)} {i : Fin as.length}

variable (key as) in
theorem isQueue_nil : IsQueue key as 0 [] [] :=
  ⟨List.Pairwise.nil, fun i => by simp⟩

theorem IsQueue.isNext_head (h : IsQueue key as taken gone (i :: queue)) :
    IsNext key as taken gone i := by
  obtain ⟨htaken, hgone⟩ := (h.mem i).1 (List.mem_cons_self ..)
  refine ⟨htaken, hgone, ?_⟩
  intro j hj hjgone
  rcases List.mem_cons.1 ((h.mem j).2 ⟨hj, hjgone⟩) with rfl | hmem
  · exact le_refl _
  · exact ((List.pairwise_cons.1 h.sorted).1 j hmem).le

theorem IsQueue.leave (h : IsQueue key as taken gone (i :: queue)) :
    IsQueue key as taken (gone ++ [i]) queue := by
  obtain ⟨hleast, hsorted⟩ := List.pairwise_cons.1 h.sorted
  refine ⟨hsorted, fun j => ?_⟩
  have hj := h.mem j
  simp only [List.mem_cons, List.mem_append, List.not_mem_nil, or_false] at hj ⊢
  constructor
  · intro hmem
    have hne : j ≠ i := fun hji => (hleast j hmem).ne (congrArg _ hji.symm)
    have := hj.1 (.inr hmem)
    tauto
  · intro hmem
    have := hj.2 ⟨hmem.1, fun h => hmem.2 (.inl h)⟩
    tauto

/-- An item that arrives goes behind those of no larger key, all of which came before it. -/
theorem insert_entries (hbefore : ∀ j ∈ queue, j < i) :
    (entries key as queue).insert (key as[i]) as[i]
      = entries key as (enqueue key as i queue) := by
  induction queue with
  | nil => rfl
  | cons j queue ih =>
    have hji : ¬ i ≤ j := not_le.2 (hbefore j (List.mem_cons_self ..))
    have hrank : RankLE key as i j ↔ key as[i] < key as[j] := by
      rw [RankLE, rank_le_iff]
      tauto
    have ih := ih fun k hk => hbefore k (List.mem_cons_of_mem _ hk)
    simp only [entries, enqueue, List.map_cons, Waiting.insert, List.orderedInsert_cons,
      hrank] at ih ⊢
    split
    · rfl
    · rw [ih, List.map_cons]

theorem sorted_enqueue (hsorted : queue.Pairwise fun i j => rank key as i < rank key as j)
    (hfresh : i ∉ queue) :
    (enqueue key as i queue).Pairwise fun i j => rank key as i < rank key as j := by
  have hle : queue.Pairwise (RankLE key as) := hsorted.imp le_of_lt
  have hnodup : (enqueue key as i queue).Nodup := by
    rw [(enqueue_perm key as i queue).nodup_iff, List.nodup_cons]
    exact ⟨hfresh, hsorted.imp fun hlt heq => hlt.ne (congrArg _ heq)⟩
  refine ((hle.orderedInsert i).and hnodup).imp ?_
  intro j k hjk
  exact lt_of_le_of_ne hjk.1 ((rank_injective key as).ne hjk.2)

theorem IsQueue.arrive (h : IsQueue key as i gone queue) (hgone : ∀ j ∈ gone, j < i) :
    IsQueue key as (i + 1) gone (enqueue key as i queue) := by
  have hi : i ∉ gone := fun hmem => lt_irrefl i (hgone i hmem)
  have hfresh : i ∉ queue := fun hmem => lt_irrefl i.val ((h.mem i).1 hmem).1
  refine ⟨sorted_enqueue h.sorted hfresh, fun j => ?_⟩
  rw [(enqueue_perm key as i queue).mem_iff, List.mem_cons, h.mem j]
  by_cases hji : j = i
  · simp [hji, hi]
  · have : j.val ≠ i := fun h => hji (Fin.ext h)
    simp only [hji, false_or]
    constructor
    · intro hj
      exact ⟨by omega, hj.2⟩
    · intro hj
      exact ⟨by omega, hj.2⟩

end Steps

/-! ## The whole run -/

section Run

variable {key as} {w : Nat}

/-- The items at these places, each with the number of items taken before it is yielded;
`gone` items were yielded before. -/
def yields (w gone : Nat) (places : List (Fin as.length)) : List (α × Nat) :=
  (places.zipIdx gone).map fun p => (as[p.1], min as.length (w + p.2))

variable (key) in
/-- When these have gone, each of the places is the next one in its turn. -/
def Selects (w : Nat) (gone places : List (Fin as.length)) : Prop :=
  ∀ k, (hk : k < places.length) →
    IsNext key as (min as.length (w + (gone.length + k))) (gone ++ places.take k) places[k]

theorem selects_nil (gone : List (Fin as.length)) : Selects key w gone [] :=
  fun _ hk => absurd hk (Nat.not_lt_zero _)

theorem selects_cons {gone places : List (Fin as.length)} {i : Fin as.length}
    (hi : IsNext key as (min as.length (w + gone.length)) gone i)
    (hplaces : Selects key w (gone ++ [i]) places) : Selects key w gone (i :: places) := by
  intro k hk
  cases k with
  | zero => simpa using hi
  | succ k =>
    have h := hplaces k (Nat.lt_of_succ_lt_succ hk)
    have hlen : (gone ++ [i]).length + k = gone.length + (k + 1) := by
      simp only [List.length_append, List.length_singleton]
      omega
    rw [hlen, List.append_assoc] at h
    exact h

/-- At the end of the list the window is emptied in order. -/
theorem drain_selects {gone queue : List (Fin as.length)}
    (hqueue : IsQueue key as as.length gone queue) (hw : as.length ≤ w + gone.length) :
    ((entries key as queue).drain : Feed Unit ε α).timed as.length
        = yields w gone.length queue ∧ Selects key w gone queue := by
  induction queue generalizing gone with
  | nil => exact ⟨rfl, selects_nil gone⟩
  | cons i queue ih =>
    obtain ⟨htimed, hselects⟩ := ih hqueue.leave (by simp; omega)
    have hmin : min as.length (w + gone.length) = as.length := Nat.min_eq_left hw
    constructor
    · simp only [entries, List.map_cons, Waiting.drain, Feed.timed, yields, List.zipIdx_cons,
        hmin]
      simp only [entries, yields, List.length_append, List.length_singleton] at htimed
      rw [htimed]
    · refine selects_cons ?_ hselects
      rw [hmin]
      exact hqueue.isNext_head

/-- Once the window is full, the first item leaves it for each one that arrives. -/
theorem reorderFrom_full {waiting waiting' : Waiting κ α} {e : κ × α} {a : α}
    {rest : Feed Unit ε α} (h : waiting.insert (key a) a = e :: waiting') :
    reorderFrom key 1 waiting (.yield a rest) = .yield e.2 (reorderFrom key 1 waiting' rest) := by
  simp only [reorderFrom, h]

/-- A run from any moment on: `m` items have been taken, `missing` more fill the window. -/
theorem reorderFrom_selects {m missing : Nat} {gone queue : List (Fin as.length)}
    (hqueue : IsQueue key as m gone queue) (hgone : ∀ j ∈ gone, j.val < m)
    (hm : m ≤ as.length) (hmissing : 1 ≤ missing) (hcount : missing + m = w + gone.length) :
    ∃ places : List (Fin as.length),
      (reorderFrom key missing (entries key as queue)
          (Feed.ofList (as.drop m) : Feed Unit ε α)).timed m = yields w gone.length places ∧
      Selects key w gone places ∧ ∀ i, i ∈ gone ∨ i ∈ places := by
  induction hrest : as.length - m generalizing m missing gone queue with
  | zero =>
    obtain rfl : m = as.length := by omega
    obtain ⟨htimed, hselects⟩ := drain_selects (ε := ε) (w := w) hqueue (by omega)
    refine ⟨queue, ?_, hselects, fun i => ?_⟩
    · rw [List.drop_length]
      exact htimed
    · have := hqueue.mem i
      have := i.isLt
      tauto
  | succ rest ih =>
    have hlt : m < as.length := by omega
    let i : Fin as.length := ⟨m, hlt⟩
    have hqueue' : IsQueue key as (m + 1) gone (enqueue key as i queue) :=
      IsQueue.arrive (i := i) hqueue hgone
    have hinsert : (entries key as queue).insert (key as[m]) as[m]
        = entries key as (enqueue key as i queue) :=
      insert_entries (i := i) fun j hj => ((hqueue.mem j).1 hj).1
    have hne : enqueue key as i queue ≠ [] := fun hnil => by
      simpa [hnil] using (enqueue_perm key as i queue).length_eq
    rw [List.drop_eq_getElem_cons hlt, Feed.ofList, reorderFrom, Feed.timed]
    obtain rfl | ⟨missing, rfl⟩ : missing = 1 ∨ ∃ k, missing = k + 2 := by
      rcases missing with - | - | k
      · omega
      · exact .inl rfl
      · exact .inr ⟨k, rfl⟩
    · -- the window is full: its first item leaves
      cases hfirst : enqueue key as i queue with
      | nil => exact absurd hfirst hne
      | cons j queue' =>
        rw [hfirst] at hqueue' hinsert
        rw [reorderFrom_full hinsert]
        have hj : j.val < m + 1 := ((hqueue'.mem j).1 (List.mem_cons_self ..)).1
        have hgone' : ∀ k ∈ gone ++ [j], k.val < m + 1 := by
          intro k hk
          rcases List.mem_append.1 hk with hk | hk
          · exact Nat.lt_succ_of_lt (hgone k hk)
          · rw [List.mem_singleton.1 hk]
            exact hj
        obtain ⟨places, htimed, hselects, hall⟩ :=
          ih hqueue'.leave hgone' hlt le_rfl (by simp; omega) (by omega)
        have hmin : min as.length (w + gone.length) = m + 1 := by omega
        refine ⟨j :: places, ?_, ?_, ?_⟩
        · simp only [List.map_cons, Feed.timed, yields, List.zipIdx_cons, hmin]
          simp only [entries, yields, List.length_append, List.length_singleton] at htimed
          rw [htimed]
        · refine selects_cons ?_ hselects
          rw [hmin]
          exact hqueue'.isNext_head
        · intro k
          have := hall k
          simp only [List.mem_append, List.mem_cons, List.not_mem_nil, or_false] at this ⊢
          tauto
    · -- the window is still being filled
      rw [reorderFrom, hinsert]
      exact ih hqueue' (fun j hj => Nat.lt_succ_of_lt (hgone j hj)) hlt (by omega) (by omega)
        (by omega)

end Run

/-! ## What follows from the selection -/

section Selected

variable {key as} {w : Nat} {places : List (Fin as.length)}

theorem Selects.isNext (h : Selects key w [] places) {k : Nat} (hk : k < places.length) :
    IsNext key as (min as.length (w + k)) (places.take k) places[k] := by
  have := h k hk
  rwa [List.length_nil, Nat.zero_add, List.nil_append] at this

/-- No item is yielded twice. -/
theorem Selects.ne (h : Selects key w [] places) {j k : Nat} (hjk : j < k)
    (hk : k < places.length) : places[j] ≠ places[k] := by
  intro heq
  refine (h.isNext hk).waiting ?_
  rw [← heq, List.mem_take_iff_getElem]
  exact ⟨j, by omega, rfl⟩

theorem Selects.nodup (h : Selects key w [] places) : places.Nodup :=
  List.pairwise_iff_getElem.2 fun _ _ _ hk hjk => h.ne hjk hk

/-- What is yielded later was not there yet, or is of higher rank. -/
theorem Selects.rank_lt (h : Selects key w [] places) {j k : Nat} (hjk : j < k)
    (hk : k < places.length) :
    min as.length (w + j) ≤ places[k].val ∨ rank key as places[j] < rank key as places[k] := by
  by_cases harrived : places[k].val < min as.length (w + j)
  · right
    have hwaiting : places[k] ∉ places.take j := by
      rw [List.mem_take_iff_getElem]
      rintro ⟨l, hl, heq⟩
      exact h.ne (j := l) (by omega) hk heq
    have hle := (h.isNext (by omega : j < places.length)).least _ harrived hwaiting
    exact hle.lt_of_ne ((rank_injective key as).ne (h.ne hjk hk))
  · exact .inl (by omega)

/-- Items of equal keys are yielded in the order of the list. -/
theorem Selects.stable (h : Selects key w [] places) :
    places.Pairwise fun i j => key as[i] = key as[j] → i < j := by
  rw [List.pairwise_iff_getElem]
  intro j k hj hk hjk hkey
  have harrived := (h.isNext hj).arrived
  rcases h.rank_lt hjk hk with hlate | hrank
  · exact Fin.lt_def.2 (by omega)
  · rcases (rank_le_iff key as _ _).1 hrank.le with hlt | ⟨-, hle⟩
    · exact absurd hkey hlt.ne
    · exact hle.lt_of_ne (h.ne hjk hk)

theorem Selects.perm (h : Selects key w [] places) (hall : ∀ i, i ∈ places) :
    places.Perm (List.finRange as.length) := by
  rw [List.perm_ext_iff_of_nodup h.nodup (List.nodup_finRange _)]
  intro i
  simp [hall i]

variable (key as) in
/-- The order that makes a sort of a list stable is the order of the ranks. -/
theorem zipIdxLE_eq (i j : Fin as.length) :
    List.zipIdxLE (fun a b => decide (key a ≤ key b)) (as[i], i.val) (as[j], j.val)
      = decide (RankLE key as i j) := by
  rw [Bool.eq_iff_iff, decide_eq_true_iff, RankLE, rank_le_iff, List.zipIdxLE]
  simp only [Fin.getElem_fin, decide_eq_true_eq, Fin.val_fin_le, Bool.if_true_right,
    Bool.if_false_right, Bool.and_eq_true, Bool.or_eq_true, Bool.not_eq_eq_eq_not, Bool.not_true,
    decide_eq_false_iff_not, not_le]
  rw [le_iff_lt_or_eq, or_and_left]

variable (key as) in
/-- The stable sort of a list, by the ranks of its places. -/
theorem map_mergeSort_rank :
    ((List.finRange as.length).mergeSort fun i j => decide (RankLE key as i j)).map
        (fun i => as[i])
      = as.mergeSort fun a b => decide (key a ≤ key b) := by
  have hzip : (List.finRange as.length).map (fun i => (as[i], i.val)) = as.zipIdx :=
    List.ext_getElem (by simp) fun k _ _ => by simp
  have hsort := List.map_mergeSort (l := List.finRange as.length)
    (f := fun i : Fin as.length => (as[i], i.val))
    fun i _ j _ => (zipIdxLE_eq key as i j).symm
  rw [hzip] at hsort
  calc ((List.finRange as.length).mergeSort fun i j => decide (RankLE key as i j)).map
          (fun i => as[i])
      = (as.zipIdx.mergeSort (List.zipIdxLE fun a b => decide (key a ≤ key b))).map
          (fun p => p.1) := by rw [← hsort, List.map_map]; rfl
    _ = as.mergeSort fun a b => decide (key a ≤ key b) := List.mergeSort_zipIdx

/-- A window that holds the whole list sorts it. -/
theorem Selects.sorted (h : Selects key w [] places) (hall : ∀ i, i ∈ places)
    (hw : as.length ≤ w) :
    places.map (fun i => as[i]) = as.mergeSort fun a b => decide (key a ≤ key b) := by
  have hsorted : places.Pairwise (RankLE key as) := by
    rw [List.pairwise_iff_getElem]
    intro j k hj hk hjk
    rcases h.rank_lt hjk hk with hlate | hrank
    · have := places[k].isLt
      omega
    · exact hrank.le
  have hperm := (h.perm hall).trans
    (List.mergeSort_perm _ fun i j => decide (RankLE key as i j)).symm
  have heq : places = (List.finRange as.length).mergeSort fun i j => decide (RankLE key as i j) :=
    hperm.eq_of_pairwise' hsorted (List.pairwise_mergeSort' (RankLE key as) _)
  rw [← map_mergeSort_rank key as, ← heq]

end Selected

/-- Reordering within a window is a lazy, stable selection. The items of a list are yielded
in the order of some places, each of its places once; when the item at one of them is
yielded, the window has just been filled up, and the item is the least of those that were
taken and are still there. So the same items come out, those of equal keys in the order of
the list and none more than `w - 1` places early, and a window as long as the list sorts it. -/
theorem reorder_selects (key : α → κ) {w : Nat} (hw : 1 ≤ w) (as : List α) :
    ∃ places : List (Fin as.length),
      (reorder key w (Feed.ofList as : Feed Unit ε α)).timed 0
        = places.zipIdx.map (fun p => (as[p.1], min as.length (w + p.2))) ∧
      places.length = as.length ∧
      (∀ k, (hk : k < places.length) →
        IsNext key as (min as.length (w + k)) (places.take k) places[k]) ∧
      (places.map fun i => as[i]).Perm as ∧
      places.Pairwise (fun i j => key as[i] = key as[j] → i < j) ∧
      (∀ k, (hk : k < places.length) → places[k].val < k + w) ∧
      (as.length ≤ w →
        (places.map fun i => as[i]) = as.mergeSort fun a b => decide (key a ≤ key b)) := by
  obtain ⟨places, htimed, hselects, hall⟩ :=
    reorderFrom_selects (ε := ε) (w := w) (isQueue_nil key as) (by simp)
      (Nat.zero_le _) hw rfl
  have hall : ∀ i, i ∈ places := fun i => (hall i).resolve_left (by simp)
  have hperm := hselects.perm hall
  refine ⟨places, htimed, ?_, fun k hk => hselects.isNext hk, ?_, hselects.stable, ?_,
    hselects.sorted hall⟩
  · rw [hperm.length_eq, List.length_finRange]
  · have := hperm.map as.get
    rwa [List.map_get_finRange] at this
  · intro k hk
    have := (hselects.isNext hk).arrived
    omega

/-- Within a window of two, the last number is compared only after two have been yielded. -/
theorem reorder_selects_sliding :
    1 ≤ 2 ∧ (reorder id 2 (Feed.ofList [5, 3, 9, 1] : Feed Unit Empty Nat)).timed 0
        = [(3, 2), (5, 3), (1, 4), (9, 4)] ∧
      ∃ places : List (Fin 4),
        places.zipIdx.map (fun p => ([5, 3, 9, 1][p.1], min 4 (2 + p.2)))
          = [(3, 2), (5, 3), (1, 4), (9, 4)] ∧
        ∀ k, (hk : k < places.length) →
          IsNext id [5, 3, 9, 1] (min 4 (2 + k)) (places.take k) places[k] := by
  obtain ⟨places, htimed, -, hnext, -⟩ :=
    reorder_selects (ε := Empty) id (w := 2) (by decide) [5, 3, 9, 1]
  have hrun : (reorder id 2 (Feed.ofList [5, 3, 9, 1] : Feed Unit Empty Nat)).timed 0
      = [(3, 2), (5, 3), (1, 4), (9, 4)] := by decide
  exact ⟨by decide, hrun, places, htimed.symm.trans hrun, hnext⟩

end Whittle.Search
