import Whittle.Proofs.Search.Calls
import Whittle.Proofs.Search.Termination

/-!
# The accounts of a harvest

While candidates are taken, the judge is asked about them one by one, and never before the
consumer needs the answer. The judge may keep a state and may raise, and the consumer may stop
after any number of items. However it ends, the items are the accepted trees among those asked
about, and the counters in the log add up.
-/

namespace Whittle.Search

variable {σ ε : Type}

/-! ## What the judge is asked -/

/-- A tree that the judge is asked about, and what comes back. -/
structure Verdict (ε : Type) where
  tree : Tree
  answer : Except ε Bool

namespace Verdict

/-- The tree, if it is accepted. -/
def accepted? : Verdict ε → Option Tree
  | ⟨t, .ok true⟩ => some t
  | _ => none

def isRefusal : Verdict ε → Bool
  | ⟨_, .ok false⟩ => true
  | _ => false

/-- What the judge raised. -/
def fault? : Verdict ε → Option ε
  | ⟨_, .error e⟩ => some e
  | _ => none

end Verdict

/-- The trees that are accepted, in order. -/
def acceptedTrees (vs : List (Verdict ε)) : List Tree := vs.filterMap Verdict.accepted?

/-- The judge that notes its verdicts beside its state. -/
def notedJudge (judge : Tree → Asking σ ε Bool) :
    Tree → Asking (σ × List (Verdict ε)) ε Bool := fun t w =>
  let (answer, s) := judge t w.1
  (answer, s, w.2 ++ [⟨t, answer⟩])

/-- The verdicts while candidates are taken, in order. -/
def verdicts (judge : Tree → Asking σ ε Bool) (limit : Option Nat)
    (f : Feed Tree EditFault Tree) (s : σ) : List (Verdict ε) :=
  (collect (notedJudge judge) limit f (s, [])).2.2

variable {judge : Tree → Asking σ ε Bool} {limit : Option Nat} {s : σ}

theorem collect_zero (f : Feed Tree EditFault Tree) (s : σ) :
    collect judge (some 0) f s = (.bare .closed, s) := by
  cases f <;> simp [collect]

/-- Nothing changes if verdicts are noted, and they are noted behind those that were there. -/
theorem collect_notedJudge (judge : Tree → Asking σ ε Bool) (f : Feed Tree EditFault Tree)
    (limit : Option Nat) (s : σ) (us : List (Verdict ε)) :
    collect (notedJudge judge) limit f (s, us) = ((collect judge limit f s).1,
      (collect judge limit f s).2, us ++ verdicts judge limit f s) := by
  induction f generalizing limit s us with
  | done => simp [verdicts, collect]
  | failed e => simp [verdicts, collect]
  | yield t rest ih =>
    by_cases hlimit : limit = some 0
    · subst hlimit
      simp [verdicts, collect_zero]
    · simp only [verdicts, collect, if_neg hlimit]
      rw [ih _ s us, ih _ s []]
      rfl
  | ask t next ih =>
    by_cases hlimit : limit = some 0
    · subst hlimit
      simp [verdicts, collect_zero]
    · simp only [verdicts, collect, if_neg hlimit, notedJudge]
      rcases judge t s with ⟨e | b, s'⟩
      · rfl
      · dsimp only
        rw [ih b limit s' (us ++ _), ih b limit s' ([] ++ _), List.append_assoc]
        rfl

/-! ## Sifting -/

/-- The feed that asks about the trees of a list in turn and yields those that are accepted. -/
def sifted : List Tree → Feed Tree EditFault Tree
  | [] => .done
  | w :: ws => .ask w fun accepted => if accepted then .yield w (sifted ws) else sifted ws

/-- The trees of a list are sifted, verdict by verdict, until enough are accepted, none is left
or the judge raises. -/
inductive Sifts (judge : Tree → Asking σ ε Bool) :
    Option Nat → List Tree → σ → List (Verdict ε) → Harvest ε → Prop
  | closed (ws : List Tree) (s : σ) : Sifts judge (some 0) ws s [] (.bare .closed)
  | finished {limit : Option Nat} (hlimit : limit ≠ some 0) (s : σ) :
      Sifts judge limit [] s [] (.bare .finished)
  | raised {limit : Option Nat} {w : Tree} {s s' : σ} {e : ε} (hlimit : limit ≠ some 0)
      (hjudge : judge w s = (.error e, s')) (ws : List Tree) :
      Sifts judge limit (w :: ws) s [⟨w, .error e⟩] { Harvest.bare (.raised e) with produced := 1 }
  | refused {limit : Option Nat} {w : Tree} {s s' : σ} {ws : List Tree} {vs : List (Verdict ε)}
      {h : Harvest ε} (hlimit : limit ≠ some 0) (hjudge : judge w s = (.ok false, s'))
      (hrest : Sifts judge limit ws s' vs h) :
      Sifts judge limit (w :: ws) s (⟨w, .ok false⟩ :: vs) (h.withCall false)
  | accepted {limit : Option Nat} {w : Tree} {s s' : σ} {ws : List Tree} {vs : List (Verdict ε)}
      {h : Harvest ε} (hlimit : limit ≠ some 0) (hjudge : judge w s = (.ok true, s'))
      (hrest : Sifts judge (limit.map (· - 1)) ws s' vs h) :
      Sifts judge limit (w :: ws) s (⟨w, .ok true⟩ :: vs) ((h.withItem w).withCall true)

/-- What is collected of the feed of a list is what sifting its trees gives. -/
theorem sifts_collect (judge : Tree → Asking σ ε Bool) (ws : List Tree) (limit : Option Nat)
    (s : σ) : Sifts judge limit ws s (verdicts judge limit (sifted ws) s)
      (collect judge limit (sifted ws) s).1 := by
  induction ws generalizing limit s with
  | nil =>
    by_cases hlimit : limit = some 0
    · subst hlimit
      have hclosed : Sifts judge (some 0) [] s [] (.bare .closed) := .closed [] s
      simpa [verdicts, collect_zero] using hclosed
    · simpa [verdicts, sifted, collect, hlimit] using Sifts.finished hlimit s
  | cons w ws ih =>
    by_cases hlimit : limit = some 0
    · subst hlimit
      have hclosed : Sifts judge (some 0) (w :: ws) s [] (.bare .closed) := .closed (w :: ws) s
      simpa [verdicts, collect_zero] using hclosed
    · cases hjudge : judge w s with
      | mk answer s' =>
        have hnoted : notedJudge judge w (s, []) = (answer, s', [⟨w, answer⟩]) := by
          simp [notedJudge, hjudge]
        cases answer with
        | error e =>
          simp only [verdicts, sifted, collect, if_neg hlimit, hnoted, hjudge]
          exact .raised hlimit hjudge ws
        | ok accepted =>
          simp only [verdicts, sifted, collect, if_neg hlimit, hnoted, hjudge]
          cases accepted with
          | false =>
            simp only [Bool.false_eq_true, if_false, collect_notedJudge]
            exact .refused hlimit hjudge (ih limit s')
          | true =>
            -- the tree is yielded next, and still wanted then
            simp only [if_true, collect, if_neg hlimit]
            simp only [collect_notedJudge]
            exact .accepted hlimit hjudge (ih _ s')

/-! ## Accounts -/

/-- Whether the judge raised. -/
def Ending.hasRaised : Ending ε → Bool
  | .raised _ => true
  | _ => false

/-- When taking ends so with a number of items: after all trees, or with the last item that was
wanted, or with the only verdict that is a fault. -/
def Ending.Closes (ws : List Tree) (limit : Option Nat) (vs : List (Verdict ε)) (items : Nat) :
    Ending ε → Prop
  | .finished => vs.map (·.tree) = ws ∧ ∀ v ∈ vs, v.fault? = none
  | .closed => limit = some items ∧ ∀ v ∈ vs, v.fault? = none
  | .raised e => ∃ us t, vs = us ++ [⟨t, .error e⟩] ∧ ∀ v ∈ us, v.fault? = none
  | .failed _ => False

/-- A verdict more before the others, which is no fault. -/
theorem Ending.Closes.cons {ws : List Tree} {limit limit' : Option Nat} {vs : List (Verdict ε)}
    {n n' : Nat} {w : Tree} {v : Verdict ε} {e : Ending ε} (h : e.Closes ws limit vs n)
    (hw : v.tree = w) (hv : v.fault? = none) (hlimit : limit = some n → limit' = some n') :
    e.Closes (w :: ws) limit' (v :: vs) n' := by
  subst hw
  cases e with
  | finished => exact ⟨congrArg (v.tree :: ·) h.1, List.forall_mem_cons.2 ⟨hv, h.2⟩⟩
  | closed => exact ⟨hlimit h.1, List.forall_mem_cons.2 ⟨hv, h.2⟩⟩
  | raised e =>
    obtain ⟨us, t, rfl, hus⟩ := h
    exact ⟨v :: us, t, rfl, List.forall_mem_cons.2 ⟨hv, hus⟩⟩
  | failed f => exact h

/-- How a harvest of the trees of a list agrees with the verdicts on them. -/
structure Accounts (ws : List Tree) (limit : Option Nat) (vs : List (Verdict ε))
    (h : Harvest ε) : Prop where
  /-- The judge is asked about the first trees, in order, and once about each. -/
  trees : vs.map (·.tree) <+: ws
  /-- It is asked only while an item is wanted. -/
  wanted : ∀ us v, us ++ [v] <+: vs → ∀ n, limit = some n → (acceptedTrees us).length < n
  items : h.items = acceptedTrees vs
  produced : h.produced = vs.length
  rejected : h.rejected = vs.countP Verdict.isRefusal
  total : h.produced = h.rejected + h.items.length + (if h.ending.hasRaised then 1 else 0)
  ending : h.ending.Closes ws limit vs h.items.length

namespace Sifts

variable {ws : List Tree} {vs : List (Verdict ε)} {h : Harvest ε}

theorem trees (hs : Sifts judge limit ws s vs h) : vs.map (·.tree) <+: ws := by
  induction hs with
  | closed ws s => exact List.nil_prefix
  | finished hlimit s => exact List.nil_prefix
  | raised hlimit hjudge ws => exact ⟨ws, rfl⟩
  | refused hlimit hjudge hrest ih => exact List.cons_prefix_cons.2 ⟨rfl, ih⟩
  | accepted hlimit hjudge hrest ih => exact List.cons_prefix_cons.2 ⟨rfl, ih⟩

theorem wanted (hs : Sifts judge limit ws s vs h) {us : List (Verdict ε)} {v : Verdict ε}
    (hus : us ++ [v] <+: vs) {n : Nat} (hn : limit = some n) : (acceptedTrees us).length < n := by
  induction hs generalizing us n with
  | closed ws s => simp at hus
  | finished hlimit s => simp at hus
  | @raised limit w s s' e hlimit hjudge ws =>
    obtain rfl : us = [] := by
      cases us with
      | nil => rfl
      | cons u us => simp [List.cons_prefix_cons] at hus
    have hpos : n ≠ 0 := fun h0 => hlimit (h0 ▸ hn)
    exact Nat.pos_of_ne_zero hpos
  | @refused limit w s s' ws vs h hlimit hjudge hrest ih =>
    have hpos : n ≠ 0 := fun h0 => hlimit (h0 ▸ hn)
    cases us with
    | nil => exact Nat.pos_of_ne_zero hpos
    | cons u us =>
      obtain ⟨rfl, hrest⟩ := List.cons_prefix_cons.1 hus
      exact ih hrest hn
  | @accepted limit w s s' ws vs h hlimit hjudge hrest ih =>
    have hpos : n ≠ 0 := fun h0 => hlimit (h0 ▸ hn)
    cases us with
    | nil => exact Nat.pos_of_ne_zero hpos
    | cons u us =>
      obtain ⟨rfl, hrest⟩ := List.cons_prefix_cons.1 hus
      have hlt : (acceptedTrees us).length < n - 1 := ih hrest (by rw [hn]; rfl)
      show (acceptedTrees us).length + 1 < n
      omega

theorem items (hs : Sifts judge limit ws s vs h) : h.items = acceptedTrees vs := by
  induction hs with
  | closed ws s => rfl
  | finished hlimit s => rfl
  | raised hlimit hjudge ws => rfl
  | refused hlimit hjudge hrest ih => exact ih
  | accepted hlimit hjudge hrest ih => exact congrArg (_ :: ·) ih

theorem produced (hs : Sifts judge limit ws s vs h) : h.produced = vs.length := by
  induction hs with
  | closed ws s => rfl
  | finished hlimit s => rfl
  | raised hlimit hjudge ws => rfl
  | refused hlimit hjudge hrest ih => exact congrArg (· + 1) ih
  | accepted hlimit hjudge hrest ih => exact congrArg (· + 1) ih

theorem rejected (hs : Sifts judge limit ws s vs h) :
    h.rejected = vs.countP Verdict.isRefusal := by
  induction hs with
  | closed ws s => rfl
  | finished hlimit s => rfl
  | raised hlimit hjudge ws => rfl
  | refused hlimit hjudge hrest ih =>
    rw [List.countP_cons_of_pos rfl, ← ih]
    rfl
  | accepted hlimit hjudge hrest ih =>
    rw [List.countP_cons_of_neg (by simp [Verdict.isRefusal]), ← ih]
    rfl

/-- Each verdict is a refusal, an item or a fault, and a fault is the last one. -/
theorem total (hs : Sifts judge limit ws s vs h) :
    h.produced = h.rejected + h.items.length + (if h.ending.hasRaised then 1 else 0) := by
  induction hs with
  | closed ws s => rfl
  | finished hlimit s => rfl
  | raised hlimit hjudge ws => rfl
  | @refused limit w s s' ws vs h hlimit hjudge hrest ih =>
    show h.produced + 1 = h.rejected + 1 + h.items.length + (if h.ending.hasRaised then 1 else 0)
    omega
  | @accepted limit w s s' ws vs h hlimit hjudge hrest ih =>
    show h.produced + 1
      = h.rejected + (h.items.length + 1) + (if h.ending.hasRaised then 1 else 0)
    omega

theorem ending (hs : Sifts judge limit ws s vs h) :
    h.ending.Closes ws limit vs h.items.length := by
  induction hs with
  | closed ws s => exact ⟨rfl, nofun⟩
  | finished hlimit s => exact ⟨rfl, nofun⟩
  | raised hlimit hjudge ws => exact ⟨[], _, rfl, nofun⟩
  | refused hlimit hjudge hrest ih => exact ih.cons rfl rfl id
  | @accepted limit w s s' ws vs h hlimit hjudge hrest ih =>
    refine ih.cons rfl rfl ?_
    intro hlen
    cases hn : limit with
    | none => simp [hn] at hlen
    | some n =>
      have hpos : n ≠ 0 := fun h0 => hlimit (h0 ▸ hn)
      have hlen : n - 1 = h.items.length := by simpa [hn] using hlen
      show some n = some (h.items.length + 1)
      rw [← hlen]
      congr 1
      omega

/-- Whatever is sifted, the accounts agree with the verdicts. -/
theorem accounts (hs : Sifts judge limit ws s vs h) : Accounts ws limit vs h :=
  ⟨hs.trees, fun _ _ hus _ hn => hs.wanted hus hn, hs.items, hs.produced, hs.rejected, hs.total,
    hs.ending⟩

end Sifts

/-! ## Candidates -/

/-- The candidates are what the variants of a part give when they are put in its place. -/
theorem judged_eq_sifted {t u : Tree} {path : Path} {es : List Edit} {vs ws : List Tree}
    (hvs : List.Forall₂ (fun e v => e.apply u = .ok v) es vs)
    (hws : vs.map (t.replace path) = ws.map .ok) : judged t u path none es = sifted ws := by
  induction hvs generalizing ws with
  | nil =>
    obtain rfl : ws = [] := by simpa using hws.symm
    rfl
  | cons hv hrest ih =>
    cases ws with
    | nil => simp at hws
    | cons w ws =>
      obtain ⟨hw, hws⟩ := List.cons.inj hws
      have hwhole := editedWhole_eq_ok.2 ⟨_, hv, hw⟩
      rw [judged, hwhole]
      simp only [ih hws]
      rfl

/-- The judge is asked about the variants of the part at the path, put in its place, one after
the other and only while an item is wanted. The items are the accepted ones, the counters add
up, and once an item has been asked for there is one line in the log. -/
theorem collect_accounts {t u : Tree} {path : Path} {type : Option Position}
    (ht : t.wellTyped = true) (hres : resolve t path = .ok (u, type)) :
    ∃ (f : Feed Tree EditFault Tree) (ws : List Tree),
      candidates t path = .ok f ∧ (variants type u).fault = none ∧
      (variants type u).items.map (t.replace path) = ws.map .ok ∧
      ∀ {σ ε : Type} (judge : Tree → Asking σ ε Bool) (limit : Option Nat) (s : σ),
        let vs := verdicts judge limit f s
        let h := (collect judge limit f s).1
        Accounts ws limit vs h ∧ (limit = some 0 → vs = []) ∧
        harvestLog path limit h = (if limit = some 0 then []
          else [.enumerated vs.length path (vs.countP Verdict.isRefusal)]) := by
  obtain ⟨hfault, hedits⟩ := lightens_whole (wellTyped_iff.1 ht).loosen hres
  have happly : ∀ e ∈ (edits type u).items, ∃ v, e.apply u = .ok v := by
    intro e he
    obtain ⟨v, c, hv, -⟩ := hedits e he
    exact ⟨v, hv⟩
  obtain ⟨vs, hvariants, hvs⟩ := Series.mapExcept_ofList happly
  rw [← Series.eq_ofList hfault] at hvariants
  obtain ⟨ws, hws⟩ : ∃ ws : List Tree, vs.map (t.replace path) = ws.map Except.ok := by
    choose put hput using Tree.exists_replace (get_of_resolve hres)
    exact ⟨vs.map put, by rw [List.map_map]; exact List.map_congr_left fun v _ => hput v⟩
  refine ⟨sifted ws, ws, ?_, ?_, ?_, ?_⟩
  · rw [← judged_eq_sifted hvs hws]
    exact candidates_eq_ok.2 ⟨u, type, hres, by rw [hfault]⟩
  · show ((edits type u).mapExcept (·.apply u)).fault = none
    rw [hvariants]
    rfl
  · show ((edits type u).mapExcept (·.apply u)).items.map _ = _
    rw [hvariants]
    exact hws
  · intro σ ε judge limit s
    have haccounts := (sifts_collect judge ws limit s).accounts
    refine ⟨haccounts, ?_, ?_⟩
    · rintro rfl
      simp [verdicts, collect_zero]
    · rw [harvestLog, haccounts.produced, haccounts.rejected]

/-- Candidates for a guarded throw, for a consumer who wants five: the judge accepts the first,
refuses the second and raises at the third. -/
theorem collect_accounts_guardedThrow :
    let judge : Tree → Asking Nat Unit Bool := fun _ n =>
      if n = 0 then (.ok true, 1) else if n = 1 then (.ok false, 2) else (.error (), n)
    guardedThrow.wellTyped = true ∧ resolve guardedThrow [] = .ok (guardedThrow, none) ∧
    ∃ f ws, candidates guardedThrow [] = .ok f ∧
      Accounts ws (some 5) (verdicts judge (some 5) f 0) (collect judge (some 5) f 0).1 ∧
      harvestLog [] (some 5) (collect judge (some 5) f 0).1 = [.enumerated 3 [] 1] ∧
      verdicts judge (some 0) f 0 = [] := by
  intro judge
  have ht : guardedThrow.wellTyped = true := by decide
  obtain ⟨f, ws, hf, -, -, haccounts⟩ := collect_accounts ht (resolve_nil guardedThrow)
  obtain ⟨haccount, -, hlog⟩ := haccounts judge (some 5) 0
  obtain ⟨-, hunasked, -⟩ := haccounts judge (some 0) 0
  refine ⟨ht, rfl, f, ws, hf, haccount, hlog.trans ?_, hunasked rfl⟩
  obtain ⟨_, _, hres, rfl⟩ := candidates_eq_ok.1 hf
  cases hres
  decide

end Whittle.Search
