import Whittle.Proofs.Series
import Whittle.Search.Collect
import Whittle.Search.Window

/-!
# What feeds yield

Two views of a feed. With the answers of a test it is the series of what it yields under
them; and whatever the answers are, a property may be `Throughout` it, that is, hold of all
that it can ever yield, while it never fails. Reordering within a window keeps both: under
fixed answers the same items come out, each as often as before.
-/

namespace Whittle.Search

variable {ρ ε α κ : Type}

namespace Feed

/-- What is yielded if every question is answered by a test. -/
def answered (V : ρ → Bool) : Feed ρ ε α → Series ε α
  | .done => .empty
  | .failed e => .broken e
  | .yield a rest => .cons a (answered V rest)
  | .ask q next => answered V (next (V q))

/-- Whatever is answered, the feed does not fail and all that it yields has a property. -/
def Throughout (P : α → Prop) : Feed ρ ε α → Prop
  | .done => True
  | .failed _ => False
  | .yield a rest => P a ∧ rest.Throughout P
  | .ask _ next => ∀ b, (next b).Throughout P

/-- Whatever is answered, all that the feed yields has one property, and all that it fails with
another. -/
def All (F : ε → Prop) (P : α → Prop) : Feed ρ ε α → Prop
  | .done => True
  | .failed e => F e
  | .yield a rest => P a ∧ rest.All F P
  | .ask _ next => ∀ b, (next b).All F P

theorem throughout_iff_all {P : α → Prop} {f : Feed ρ ε α} :
    f.Throughout P ↔ f.All (fun _ => False) P := by
  induction f with
  | done => exact Iff.rfl
  | failed e => exact Iff.rfl
  | yield a rest ih => exact and_congr_right fun _ => ih
  | ask q next ih => exact forall_congr' ih

/-- The largest number of items that the feed yields, whatever is answered. -/
def most : Feed ρ ε α → Nat
  | .done => 0
  | .failed _ => 0
  | .yield _ rest => rest.most + 1
  | .ask _ next => max (next true).most (next false).most

theorem most_next_le (q : ρ) (next : Bool → Feed ρ ε α) (b : Bool) :
    (next b).most ≤ (ask q next).most := by
  cases b
  · exact Nat.le_max_right ..
  · exact Nat.le_max_left ..

end Feed

/-! ## Windows -/

theorem Waiting.answered_drain (V : ρ → Bool) (w : Waiting κ α) :
    (w.drain : Feed ρ ε α).answered V = .ofList (w.map (·.2)) := by
  induction w with
  | nil => rfl
  | cons e es ih => simp only [Waiting.drain, Feed.answered, ih]; rfl

theorem Waiting.all_drain {F : ε → Prop} {P : α → Prop} {w : Waiting κ α}
    (h : ∀ e ∈ w, P e.2) : (w.drain : Feed ρ ε α).All F P := by
  induction w with
  | nil => trivial
  | cons e es ih => exact ⟨h e (by simp), ih fun d hd => h d (by simp [hd])⟩

theorem Waiting.most_drain (w : Waiting κ α) :
    (w.drain : Feed ρ ε α).most = w.length := by
  induction w with
  | nil => rfl
  | cons e es ih => simp [Waiting.drain, Feed.most, ih]

section Window

variable [LT κ] [DecidableLT κ]

theorem Waiting.insert_perm (k : κ) (a : α) (w : Waiting κ α) :
    (w.insert k a).Perm ((k, a) :: w) := by
  induction w with
  | nil => exact List.Perm.refl _
  | cons e es ih =>
    simp only [Waiting.insert]
    split
    · exact List.Perm.refl _
    · exact (ih.cons e).trans (List.Perm.swap ..)

theorem Waiting.insert_ne_nil (k : κ) (a : α) (w : Waiting κ α) : w.insert k a ≠ [] :=
  fun h => by simpa [h] using (Waiting.insert_perm k a w).length_eq

/-- One item more arrives: the window grows, or the smallest item leaves it. -/
theorem reorderFrom_yield (key : α → κ) (missing : Nat) (w : Waiting κ α) (a : α)
    (rest : Feed ρ ε α) :
    (∃ m, missing = m + 2 ∧ reorderFrom key missing w (.yield a rest)
        = reorderFrom key (m + 1) (w.insert (key a) a) rest) ∨
    (∃ e w', w.insert (key a) a = e :: w' ∧ reorderFrom key missing w (.yield a rest)
        = .yield e.2 (reorderFrom key 1 w' rest)) := by
  match missing with
  | m + 2 => exact .inl ⟨m, rfl, by simp [reorderFrom]⟩
  | 0 | 1 =>
    right
    cases h : w.insert (key a) a with
    | nil => exact absurd h (Waiting.insert_ne_nil (key a) a w)
    | cons e w' => exact ⟨e, w', rfl, by simp [reorderFrom, h]⟩

/-- A window loses nothing and adds nothing, and breaks off where the feed does. -/
theorem answered_reorderFrom (V : ρ → Bool) (key : α → κ) (f : Feed ρ ε α) (missing : Nat)
    (w : Waiting κ α) :
    ((reorderFrom key missing w f).answered V).fault = (f.answered V).fault ∧
    ((f.answered V).fault = none → ((reorderFrom key missing w f).answered V).items.Perm
      (w.map (·.2) ++ (f.answered V).items)) := by
  induction f generalizing missing w with
  | done => simp [reorderFrom, Waiting.answered_drain, Series.ofList, Feed.answered]
  | failed e => simp [reorderFrom, Feed.answered]
  | ask q next ih =>
    simp only [reorderFrom, Feed.answered]
    exact ih (V q) missing w
  | yield a rest ih =>
    have hins := (Waiting.insert_perm (key a) a w).map (·.2)
    rcases reorderFrom_yield key missing w a rest with ⟨m, -, hm⟩ | ⟨e, w', hw, hm⟩
    · obtain ⟨hf, hi⟩ := ih (m + 1) (w.insert (key a) a)
      rw [hm]
      refine ⟨hf, fun h => (hi h).trans ?_⟩
      exact (hins.append_right _).trans (List.perm_middle.symm)
    · obtain ⟨hf, hi⟩ := ih 1 w'
      rw [hm]
      refine ⟨hf, fun h => ?_⟩
      rw [hw] at hins
      exact ((hi h).cons e.2).trans ((hins.append_right _).trans List.perm_middle.symm)

/-- Nothing comes out of a window that did not go in, even if the feed breaks off. -/
theorem mem_of_mem_answered_reorderFrom (V : ρ → Bool) (key : α → κ) (f : Feed ρ ε α)
    (missing : Nat) (w : Waiting κ α) {c : α}
    (h : c ∈ ((reorderFrom key missing w f).answered V).items) :
    c ∈ w.map (·.2) ∨ c ∈ (f.answered V).items := by
  induction f generalizing missing w with
  | done => simpa [reorderFrom, Waiting.answered_drain, Series.ofList, Feed.answered] using h
  | failed e => simp [reorderFrom, Feed.answered] at h
  | ask q next ih => exact ih (V q) missing w h
  | yield a rest ih =>
    have hins := (Waiting.insert_perm (key a) a w).map (·.2)
    simp only [Feed.answered, Series.items_cons, List.mem_cons]
    rcases reorderFrom_yield key missing w a rest with ⟨m, -, hm⟩ | ⟨e, w', hw, hm⟩
    · rw [hm] at h
      rcases ih (m + 1) (w.insert (key a) a) h with h | h
      · have := hins.subset h
        simp only [List.map_cons, List.mem_cons] at this
        tauto
      · exact .inr (.inr h)
    · rw [hm] at h
      simp only [Feed.answered, Series.items_cons, List.mem_cons] at h
      rw [hw] at hins
      have hsub : ∀ b ∈ e.2 :: w'.map (·.2), b = a ∨ b ∈ w.map (·.2) := by
        intro b hb
        simpa using hins.subset hb
      rcases h with rfl | h
      · have := hsub e.2 (by simp)
        tauto
      · rcases ih 1 w' h with h | h
        · have := hsub c (List.mem_cons_of_mem _ h)
          tauto
        · exact .inr (.inr h)

theorem mem_of_mem_answered_reorder (V : ρ → Bool) (key : α → κ) (window : Nat)
    (f : Feed ρ ε α) {c : α} (h : c ∈ ((reorder key window f).answered V).items) :
    c ∈ (f.answered V).items :=
  (mem_of_mem_answered_reorderFrom V key f window [] h).resolve_left (by simp)

/-- Under fixed answers, what comes out of a window is what went in. -/
theorem answered_reorder (V : ρ → Bool) (key : α → κ) (window : Nat) (f : Feed ρ ε α) :
    ((reorder key window f).answered V).fault = (f.answered V).fault ∧
    ((f.answered V).fault = none →
      ((reorder key window f).answered V).items.Perm (f.answered V).items) :=
  answered_reorderFrom V key f window []

theorem all_reorderFrom {F : ε → Prop} {P : α → Prop} (key : α → κ) {f : Feed ρ ε α}
    (hf : f.All F P) (missing : Nat) {w : Waiting κ α} (hw : ∀ e ∈ w, P e.2) :
    (reorderFrom key missing w f).All F P := by
  induction f generalizing missing w with
  | done => exact Waiting.all_drain hw
  | failed e => exact hf
  | ask q next ih => exact fun b => ih b (hf b) missing hw
  | yield a rest ih =>
    have hins : ∀ e ∈ w.insert (key a) a, P e.2 := by
      intro e he
      rcases List.mem_cons.1 ((Waiting.insert_perm (key a) a w).subset he) with rfl | he
      · exact hf.1
      · exact hw e he
    rcases reorderFrom_yield key missing w a rest with ⟨m, -, hm⟩ | ⟨e, w', hw', hm⟩
    · rw [hm]
      exact ih hf.2 (m + 1) hins
    · rw [hm]
      rw [hw'] at hins
      exact ⟨hins e (by simp), ih hf.2 1 fun d hd => hins d (by simp [hd])⟩

/-- What holds of all that a feed yields holds of it in any window. -/
theorem Feed.All.reorder {F : ε → Prop} {P : α → Prop} (key : α → κ) {f : Feed ρ ε α}
    (hf : f.All F P) (window : Nat) : (reorder key window f).All F P :=
  all_reorderFrom key hf window (by simp)

/-- What holds throughout a feed holds throughout the feed in any window. -/
theorem Feed.Throughout.reorder {P : α → Prop} (key : α → κ) {f : Feed ρ ε α}
    (hf : f.Throughout P) (window : Nat) : (reorder key window f).Throughout P :=
  Feed.throughout_iff_all.2 ((Feed.throughout_iff_all.1 hf).reorder key window)

theorem most_reorderFrom_le (key : α → κ) (f : Feed ρ ε α) (missing : Nat)
    (w : Waiting κ α) : (reorderFrom key missing w f).most ≤ f.most + w.length := by
  induction f generalizing missing w with
  | done => simp [reorderFrom, Waiting.most_drain, Feed.most]
  | failed e => simp [reorderFrom, Feed.most]
  | ask q next ih =>
    have ht := ih true missing w
    have hf := ih false missing w
    simp only [reorderFrom, Feed.most]
    omega
  | yield a rest ih =>
    have hlen := (Waiting.insert_perm (key a) a w).length_eq
    simp only [List.length_cons] at hlen
    rcases reorderFrom_yield key missing w a rest with ⟨m, -, hm⟩ | ⟨e, w', hw', hm⟩
    · have := ih (m + 1) (w.insert (key a) a)
      rw [hm, Feed.most]
      omega
    · have := ih 1 w'
      rw [hw', List.length_cons] at hlen
      rw [hm, Feed.most, Feed.most]
      omega

/-- A window of one changes nothing: each item leaves it before the next one is asked for. -/
theorem reorder_one (key : α → κ) (f : Feed ρ ε α) : reorder key 1 f = f := by
  rw [reorder]
  induction f with
  | done => rfl
  | failed e => rfl
  | ask q next ih => rw [reorderFrom, funext ih]
  | yield a rest ih => exact congrArg (Feed.yield a) ih

/-- A window does not make a feed longer. -/
theorem most_reorder_le (key : α → κ) (window : Nat) (f : Feed ρ ε α) :
    (reorder key window f).most ≤ f.most :=
  most_reorderFrom_le key f window []

end Window

/-! ## Collecting under fixed answers -/

/-- The judge that answers by a test. -/
def judgeBy (V : Tree → Bool) : Tree → Asking Unit Empty Bool := fun t => pure (V t)

/-- Everything that a feed yields under fixed answers is collected, and the harvest is
complete exactly if the feed does not fail under them. -/
theorem collect_judgeBy (V : Tree → Bool) (f : Feed Tree EditFault Tree) :
    (collect (judgeBy V) none f ()).1.items = (f.answered V).items ∧
    (collect (judgeBy V) none f ()).1.ending
      = (match (f.answered V).fault with | none => .finished | some e => .failed e) := by
  induction f with
  | done => exact ⟨rfl, rfl⟩
  | failed e => exact ⟨rfl, rfl⟩
  | yield a rest ih => exact ⟨congrArg (a :: ·) ih.1, ih.2⟩
  | ask q next ih => exact ih (V q)

end Whittle.Search
