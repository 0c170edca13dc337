import Whittle.Proofs.Burden
import Whittle.Proofs.Search.Failures

/-!
# Fuel is never short

A search has fuel for as many passes as the weight of its first tree allows. That is enough from
any tree, well-typed or not: what the path leads to becomes less of a burden with each improvement,
and its burden is at most twice its weight. So more fuel would change nothing.
-/

namespace Whittle.Search

open Grammar Whittle.Language

variable {σ ε : Type}

/-! ## Where a path leads -/

theorem exclusive_declaredType {owner : Tree} {step : Step} {path : Path} {type : Position}
    (h : declaredType owner step path = .ok type) : Exclusive (some type) := by
  unfold declaredType at h
  split at h
  · split at h
    · rename_i hposition
      cases h
      obtain ⟨s, hs, hp⟩ := Option.bind_eq_some_iff.1 hposition
      rw [← hp]
      exact exclusive_slot (List.mem_of_find?_eq_some hs)
    · cases h
  · cases h

theorem exclusive_wrapped {type : Position} (h : Exclusive (some type)) :
    Exclusive (wrappedType? type) := by
  cases type with
  | union ms => exact exclusive_none
  | list t => simpa [Exclusive, wrappedType?, isExclusive] using h
  | maybe t => simpa [Exclusive, wrappedType?, isExclusive] using h

/-- No position that a path leads to takes both sentinels. -/
theorem exclusive_of_resolve {t u : Tree} {path : Path} {type : Option Position}
    (h : resolve t path = .ok (u, type)) : Exclusive type := by
  obtain rfl | ⟨q, s, rfl⟩ := path.eq_nil_or_concat
  · cases h
    exact exclusive_none
  · rw [List.concat_eq_append] at h
    obtain ⟨-, parent, -, htype⟩ := resolve_concat_eq_ok.1 h
    unfold positionType at htype
    split at htype
    · cases htype
      exact exclusive_none
    · -- an item of a list in a field
      rename_i field _ _
      obtain ⟨owner, -, htype⟩ := bind_eq_ok.1 htype
      obtain ⟨declared, hdeclared, htype⟩ := bind_eq_ok.1 htype
      cases htype
      exact exclusive_wrapped (exclusive_declaredType hdeclared)
    · obtain ⟨declared, hdeclared, htype⟩ := bind_eq_ok.1 htype
      cases htype
      exact exclusive_declaredType hdeclared

/-! ## Candidates -/

/-- The path leads to something whose burden is below a bound. -/
def LeadsBelow (path : Path) (n : Nat) (t : Tree) : Prop :=
  ∃ u type, resolve t path = .ok (u, type) ∧ burden type u < n

/-- What a path leads to is no more of a burden than a search from the tree has fuel for. -/
theorem leadsBelow_passBound {t u : Tree} {path : Path} {type : Option Position}
    (h : resolve t path = .ok (u, type)) : LeadsBelow path (passBound t) t := by
  have hweight := Tree.weight_get_le (get_of_resolve h)
  have hstrays := u.strays_le_weight type
  refine ⟨u, type, h, ?_⟩
  unfold burden passBound
  omega

/-- In each candidate for a tree, the path leads to less of a burden. -/
theorem all_candidates {path : Path} {n : Nat} {s : Tree} (hs : LeadsBelow path (n + 1) s)
    {f : Feed Tree EditFault Tree} (hf : candidates s path = .ok f) :
    f.All (fun _ => True) (LeadsBelow path n) := by
  obtain ⟨u, type, hres, rfl⟩ := candidates_eq_ok.1 hf
  obtain ⟨u', type', hres', hbelow⟩ := hs
  cases hres.symm.trans hres'
  refine all_judged (fun _ _ => trivial) (fun _ _ _ _ => trivial) fun e he c hc => ?_
  obtain ⟨v, hv, hreplace⟩ := editedWhole_eq_ok.1 hc
  obtain ⟨v', hv', hlt⟩ := (unburdens_of_mem_edits (exclusive_of_resolve hres) he).apply
  cases hv.symm.trans hv'
  exact ⟨v, type, resolve_replace hres hreplace, by omega⟩

/-! ## Passes -/

theorem all_ordered {F : EditFault → Prop} {P : Tree → Prop} {f : Feed Tree EditFault Tree}
    (hf : f.All F P) (window : Option Int) : (ordered window f).All F P := by
  unfold ordered
  split
  · exact hf
  · exact hf.reorder Tree.size _

/-- A candidate that is adopted has the property of all candidates, and a pass that fails does so
for a reason of its own. -/
theorem firstImprovement_all (h : Hooks σ ε) {F : EditFault → Prop} {P : Tree → Prop}
    {f : Feed Tree EditFault Tree} (hf : f.All F P) (p : Progress σ) :
    (∀ c, (firstImprovement h f p).1 = .ok (some c) → P c) ∧
      (firstImprovement h f p).1 ≠ .error .exhausted := by
  induction f generalizing p with
  | done => exact ⟨nofun, nofun⟩
  | failed e => exact ⟨nofun, nofun⟩
  | ask t next ih =>
    rw [firstImprovement_ask]
    rcases h.isValid t p.world with ⟨e | b, w⟩
    · exact ⟨nofun, nofun⟩
    · exact ih b (hf b) _
  | yield c rest ih =>
    rw [firstImprovement_yield]
    rcases h.onCandidate c p.world with ⟨e | _, w⟩
    · exact ⟨nofun, nofun⟩
    dsimp only
    rcases h.predicate c w with ⟨e | _ | _, w'⟩
    · exact ⟨nofun, nofun⟩
    · exact ih hf.2 _
    · dsimp only
      rcases h.onImproved c w' with ⟨e | _, w''⟩
      · exact ⟨nofun, nofun⟩
      · refine ⟨fun d hd => ?_, by rintro ⟨⟩⟩
        cases hd
        exact hf.1

theorem passFeed_ne_exhausted (path : Path) (window : Option Int) (best : Tree)
    (p : Progress σ) :
    ((passFeed path window best : Searching σ ε _) p).1 ≠ .error .exhausted := by
  rw [passFeed_apply]
  cases candidates best path with
  | error f => rintro ⟨⟩
  | ok f =>
    cases window with
    | none => rintro ⟨⟩
    | some n => by_cases hn : n < 1 <;> simp [hn]

/-- With fuel for its burden, a tree is never left for want of fuel, and more fuel would change
nothing. -/
theorem passesFrom_fuel (h : Hooks σ ε) {path : Path} (window : Option Int) {fuel : Nat}
    {best : Tree} (hbest : LeadsBelow path fuel best) (p : Progress σ) :
    (passesFrom h path window fuel best p).1 ≠ .error .exhausted ∧
      ∀ more, passesFrom h path window (fuel + more) best p
        = passesFrom h path window fuel best p := by
  induction fuel generalizing best p with
  | zero =>
    obtain ⟨u, type, -, hlt⟩ := hbest
    exact absurd hlt (Nat.not_lt_zero _)
  | succ fuel ih =>
    have hsucc : ∀ more, fuel + 1 + more = fuel + more + 1 := fun more => Nat.add_right_comm ..
    simp only [hsucc, passesFrom_succ]
    have hfeed := @passFeed_ne_exhausted σ ε path window best { p with passes := p.passes + 1 }
    rcases hout : (passFeed path window best : Searching σ ε _) _ with ⟨e | feed, q⟩
    · rw [hout] at hfeed
      exact ⟨by simpa using hfeed, fun _ => rfl⟩
    obtain ⟨-, rfl, f, hf, rfl⟩ := passFeed_eq_ok hout
    obtain ⟨hadopts, hfirst⟩ := firstImprovement_all h
      (all_ordered (all_candidates hbest hf) window)
      { p with passes := p.passes + 1, log := .pass (p.passes + 1) :: p.log }
    dsimp only
    generalize firstImprovement h (ordered window f) _ = out at hadopts hfirst ⊢
    obtain ⟨e | _ | better, q'⟩ := out
    · exact ⟨by simpa using hfirst, fun _ => rfl⟩
    · exact ⟨by rintro ⟨⟩, fun _ => rfl⟩
    · exact ih (hadopts better rfl) q'

/-! ## Searches -/

/-- The passes of a search from any tree are not cut short: with any fuel beyond its own the
search does the same. -/
theorem passesFrom_passBound (h : Hooks σ ε) (path : Path) (window : Option Int) (t : Tree)
    {fuel : Nat} (hfuel : passBound t ≤ fuel) (p : Progress σ) :
    passesFrom h path window fuel t p = passesFrom h path window (passBound t) t p := by
  obtain ⟨more, rfl⟩ := Nat.exists_eq_add_of_le hfuel
  cases hres : resolve t path with
  | ok r => exact (passesFrom_fuel h window (leadsBelow_passBound hres) p).2 more
  | error e =>
    -- the first pass fails already
    obtain ⟨fuel, hpos⟩ := Nat.exists_eq_add_one.2 (passBound_pos t)
    rw [hpos, Nat.add_right_comm, passesFrom_succ, passesFrom_succ, passFeed_apply,
      candidates_eq_error.2 hres]

/-- No search ever runs out of fuel, whatever tree it begins with, well-typed or not, and
whatever the outside world answers. -/
theorem reduce_ne_exhausted (h : Hooks σ ε) (path : Path) (window : Option Int) (t : Tree)
    (world : σ) : (reduce h path window t world).result ≠ .error .exhausted := by
  rcases hw : h.predicate t world with ⟨e | _ | _, w⟩
  · simp only [reduce]
    rw [search_apply, hw]
    rintro ⟨⟩
  · rw [(result_of_fails hw path window).1]
    rintro ⟨⟩
  · rw [result_of_holds hw]
    cases hres : resolve t path with
    | ok r => exact (passesFrom_fuel h window (leadsBelow_passBound hres) _).1
    | error e =>
      rw [passesFrom_noPath hres window (passBound_pos t)]
      rintro ⟨⟩

end Whittle.Search
