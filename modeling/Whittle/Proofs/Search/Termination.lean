import Whittle.Proofs.Edits
import Whittle.Proofs.Equality
import Whittle.Proofs.Resolve
import Whittle.Proofs.Search.LocalMinimum

/-!
# Searches end

A tree that comes of a well-typed one by edits fits loosely, and every edit makes such a tree
lighter. So a search from a well-typed tree ends whatever it is answered: the weight of the
tree bounds the number of improvements, and the edits of the tree bound each pass.
-/

namespace Whittle.Search

open Grammar

/-- One tree comes of another by one edit below a path. -/
def EditStep (s c : Tree) : Prop :=
  ∃ path u type, resolve s path = .ok (u, type) ∧
    ∃ v ∈ (variants type u).items, s.replace path v = .ok c

/-- Where an edit below a path leads: to a tree that fits loosely and is lighter, and in which
the path still resolves. -/
theorem lightens_whole {s u : Tree} {path : Path} {type : Option Position} (hs : s.IsFit true)
    (hres : resolve s path = .ok (u, type)) :
    (edits type u).Whole fun e => ∃ v c, e.apply u = .ok v ∧ s.replace path v = .ok c ∧
      c.IsFit true ∧ c.weight < s.weight ∧ resolve c path = .ok (v, type) := by
  obtain ⟨ps, hps, rfl, rfl, rfl⟩ := exists_frames_of_resolve hs hres
  refine (edits_whole hps hs).mono fun e he => ?_
  obtain ⟨v, hv, hfit, hlt⟩ := he.apply hps hs
  have hreplace := replace_plugAll hps u v
  exact ⟨v, _, hv, hreplace, hfit, hlt, resolve_replace hres hreplace⟩

theorem EditStep.lighter {s c : Tree} (hs : s.IsFit true) (h : EditStep s c) :
    c.IsFit true ∧ c.weight < s.weight := by
  obtain ⟨path, u, type, hres, v, hv, hc⟩ := h
  have hwhole : (variants type u).Whole fun v => ∃ c, s.replace path v = .ok c ∧
      c.IsFit true ∧ c.weight < s.weight :=
    (lightens_whole hs hres).mapExcept fun e ⟨v, c, hv, hc, hfit, hlt, _⟩ =>
      ⟨v, hv, c, hc, hfit, hlt⟩
  obtain ⟨c', hc', hfit, hlt⟩ := hwhole.2 v hv
  cases hc.symm.trans hc'
  exact ⟨hfit, hlt⟩

theorem isFit_of_editSteps {t s : Tree} (ht : t.IsFit true)
    (h : Relation.ReflTransGen EditStep t s) : s.IsFit true := by
  induction h with
  | refl => exact ht
  | tail _ hstep ih => exact (hstep.lighter ih).1

/-! ## Candidates -/

/-- The judge is asked about one tree for each edit. -/
theorem most_judged_le (t target : Tree) (path : Path) (fault : Option EditFault)
    (es : List Edit) : (judged t target path fault es).most ≤ es.length := by
  induction es with
  | nil => cases fault <;> simp [judged, Feed.most]
  | cons e es ih =>
    rw [judged]
    split
    · simp [Feed.most]
    · simp only [Feed.most, if_true, Bool.false_eq_true, if_false, List.length_cons]
      omega

theorem all_judged {F : EditFault → Prop} {P : Tree → Prop} {t target : Tree} {path : Path}
    {fault : Option EditFault} (hfault : ∀ f ∈ fault, F f) {es : List Edit}
    (hF : ∀ e ∈ es, ∀ f, editedWhole t target path e = .error f → F f)
    (hP : ∀ e ∈ es, ∀ c, editedWhole t target path e = .ok c → P c) :
    (judged t target path fault es).All F P := by
  induction es with
  | nil =>
    cases fault with
    | none => trivial
    | some f => exact hfault f rfl
  | cons e es ih =>
    have hrest := ih (fun e' he' => hF e' (List.mem_cons_of_mem _ he'))
      fun e' he' => hP e' (List.mem_cons_of_mem _ he')
    rw [judged]
    split
    · rename_i f hf
      exact hF e List.mem_cons_self f hf
    · rename_i c hc
      intro b
      cases b
      · exact hrest
      · exact ⟨hP e List.mem_cons_self c hc, hrest⟩

theorem throughout_judged {P : Tree → Prop} {t target : Tree} {path : Path} {es : List Edit}
    (h : ∀ e ∈ es, ∃ c, editedWhole t target path e = .ok c ∧ P c) :
    (judged t target path none es).Throughout P := by
  refine Feed.throughout_iff_all.2 (all_judged (by simp) (fun e he f hf => ?_) fun e he c hc => ?_)
  · obtain ⟨c, hc, -⟩ := h e he
    cases hc.symm.trans hf
  · obtain ⟨c', hc', hP⟩ := h e he
    cases hc.symm.trans hc'
    exact hP

/-- The trees among which a search below a path goes: those that fit loosely and in which the
path resolves. -/
def Searchable (path : Path) (s : Tree) : Prop :=
  s.IsFit true ∧ ∃ r, resolve s path = .ok r

/-- All candidates below a path come about, and a search can go on from them. -/
theorem descends_searchable (path : Path) : Descends (Searchable path) path := by
  rintro s ⟨hs, ⟨u, type⟩, hres⟩
  obtain ⟨hfault, hedits⟩ := lightens_whole hs hres
  refine ⟨_, candidates_eq_ok.2 ⟨u, type, hres, rfl⟩, ?_⟩
  rw [hfault]
  refine throughout_judged fun e he => ?_
  obtain ⟨v, c, hv, hc, hfit, hlt, hres'⟩ := hedits e he
  exact ⟨c, editedWhole_eq_ok.2 ⟨v, hv, hc⟩, ⟨hfit, _, hres'⟩, hlt⟩

/-! ## Searches -/

variable {σ ε : Type}

/-- A search from a well-typed tree is finite, whatever the outside world answers and however
often it changes its mind. Every tree that is reached by edits is heavier than each tree that
is one edit further, and so not equal to it; a pass tests no more candidates than there are
edits; and there are no more improvements than the first tree is heavy. -/
theorem reduce_finite {t : Tree} (ht : t.wellTyped = true) :
    (∀ s c, Relation.ReflTransGen EditStep t s → EditStep s c →
      c.weight < s.weight ∧ c.equals s = false) ∧
    (∀ s path u type, Relation.ReflTransGen EditStep t s → resolve s path = .ok (u, type) →
      ∃ f, candidates s path = .ok f ∧ ∀ (h : Hooks σ ε) window p,
        (firstImprovement h (ordered window f) p).2.tested
          ≤ p.tested + (edits type u).items.length) ∧
    ∀ (h : Hooks σ ε) path r window world, resolve t path = .ok r → WindowOk window →
      (reduce h path window t world).improvements ≤ t.weight ∧
      (reduce h path window t world).result ≠ .error .exhausted := by
  have hfit : t.IsFit true := (wellTyped_iff.1 ht).loosen
  refine ⟨fun s c hs hc => ?_, fun s path u type hs hres => ?_,
    fun h path r window world hres hw => ?_⟩
  · have hsfit := isFit_of_editSteps hfit hs
    obtain ⟨hcfit, hlt⟩ := hc.lighter hsfit
    refine ⟨hlt, ?_⟩
    cases heq : c.equals s with
    | false => rfl
    | true =>
      have := weight_of_isFit_equals hcfit hsfit heq
      omega
  · refine ⟨_, candidates_eq_ok.2 ⟨u, type, hres, rfl⟩, fun h window p => ?_⟩
    have htested := firstImprovement_tested_le h
      (ordered window (judged s u path (edits type u).fault (edits type u).items)) p
    have hordered := most_ordered_le window
      (judged s u path (edits type u).fault (edits type u).items)
    have hjudged := most_judged_le s u path (edits type u).fault (edits type u).items
    omega
  · have hend := passesFrom_end h (descends_searchable path) hw (passBound t)
      ⟨hfit, r, hres⟩ (by unfold passBound; omega)
    simp only [reduce]
    rw [search_apply]
    rcases h.predicate t world with ⟨e | _ | _, w⟩
    · exact ⟨Nat.zero_le _, by simp⟩
    · exact ⟨Nat.zero_le _, by simp⟩
    · have hpass := hend ⟨0, 0, 0, [.started t.sort path], w⟩
      dsimp only at hpass ⊢
      generalize passesFrom h path window (passBound t) t _ = out at hpass ⊢
      obtain ⟨e | r', p⟩ := out
      · obtain ⟨hout, hle⟩ := hpass
        refine ⟨by simpa using hle, ?_⟩
        rcases hout with ⟨r', heq, -⟩ | ⟨e', heq⟩
        · cases heq
        · cases heq
          simp
      · exact ⟨by simpa using hpass.2, by simp⟩

/-- A search from a guarded `throw`, and an edit of it that drops the only statement. -/
theorem reduce_finite_guardedThrow :
    guardedThrow.wellTyped = true ∧
    (Tree.node .script [.list [], .list []]).weight < guardedThrow.weight ∧
    (Tree.node .script [.list [], .list []]).equals guardedThrow = false ∧
    (reduce (Hooks.ofTests Tree.isValid (·.contains .throwStatement)) [] (some 2) guardedThrow
      ()).improvements ≤ guardedThrow.weight := by
  have ht : guardedThrow.wellTyped = true := by decide
  have hfinite := @reduce_finite Unit Empty guardedThrow ht
  have hstep : EditStep guardedThrow (.node .script [.list [], .list []]) :=
    ⟨[], guardedThrow, none, rfl, _, by decide, rfl⟩
  obtain ⟨hlt, hne⟩ := hfinite.1 _ _ .refl hstep
  exact ⟨ht, hlt, hne, (hfinite.2.2 _ [] (guardedThrow, none) (some 2) () rfl
    (by intro n hn; cases hn; decide)).1⟩

end Whittle.Search
