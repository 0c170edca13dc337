import Whittle.Proofs.Search.Failures

/-!
# The protocol of a search

The calls that a search makes, told without the search. In a pass each candidate is announced
and tested; refused ones are passed over, and the first one that is not is announced as an
improvement and ends the pass. The next pass goes through the candidates for that tree, and a
pass without an improvement is the last one. Whatever raises ends all of this at once. The
calls of every search from a well-typed tree are of this form, and what the search returns and
reports can be read off them.
-/

namespace Whittle.Search

variable {σ ε : Type}

/-! ## Passes -/

/-- Going through the beginning of a feed without an improvement: the questions that it asks are
put, and every candidate is announced and refused. -/
inductive Refuses :
    Feed Tree EditFault Tree → List (Call ε) → Feed Tree EditFault Tree → Prop
  | refl (f : Feed Tree EditFault Tree) : Refuses f [] f
  | judged {t : Tree} {next : Bool → Feed Tree EditFault Tree} {b : Bool} {cs : List (Call ε)}
      {g : Feed Tree EditFault Tree} (h : Refuses (next b) cs g) :
      Refuses (.ask t next) (.isValid t (.ok b) :: cs) g
  | refused {c : Tree} {rest : Feed Tree EditFault Tree} {cs : List (Call ε)}
      {g : Feed Tree EditFault Tree} (h : Refuses rest cs g) :
      Refuses (.yield c rest) (.candidate c (.ok ()) :: .predicate c (.ok false) :: cs) g

/-- How a pass may end where a feed goes on: with nothing, if no candidate is left; with an
improvement; or with what one of the calls raises. -/
inductive Ends : Feed Tree EditFault Tree → List (Call ε) → Except ε (Option Tree) → Prop
  | nothing : Ends .done [] (.ok none)
  | improved (c : Tree) (rest : Feed Tree EditFault Tree) :
      Ends (.yield c rest)
        [.candidate c (.ok ()), .predicate c (.ok true), .improved c (.ok ())] (.ok (some c))
  | isValidRaised (t : Tree) (next : Bool → Feed Tree EditFault Tree) (e : ε) :
      Ends (.ask t next) [.isValid t (.error e)] (.error e)
  | candidateRaised (c : Tree) (rest : Feed Tree EditFault Tree) (e : ε) :
      Ends (.yield c rest) [.candidate c (.error e)] (.error e)
  | predicateRaised (c : Tree) (rest : Feed Tree EditFault Tree) (e : ε) :
      Ends (.yield c rest) [.candidate c (.ok ()), .predicate c (.error e)] (.error e)
  | improvedRaised (c : Tree) (rest : Feed Tree EditFault Tree) (e : ε) :
      Ends (.yield c rest)
        [.candidate c (.ok ()), .predicate c (.ok true), .improved c (.error e)] (.error e)

/-- The calls of a pass through a feed, and the improvement that it comes to. -/
def Pass (f : Feed Tree EditFault Tree) (cs : List (Call ε)) (r : Except ε (Option Tree)) :
    Prop :=
  ∃ before g last, Refuses f before g ∧ Ends g last r ∧ cs = before ++ last

theorem Ends.pass {f : Feed Tree EditFault Tree} {cs : List (Call ε)}
    {r : Except ε (Option Tree)} (h : Ends f cs r) : Pass f cs r :=
  ⟨[], f, cs, .refl f, h, rfl⟩

theorem Pass.judged {t : Tree} {next : Bool → Feed Tree EditFault Tree} {b : Bool}
    {cs : List (Call ε)} {r : Except ε (Option Tree)} (h : Pass (next b) cs r) :
    Pass (.ask t next) (.isValid t (.ok b) :: cs) r := by
  obtain ⟨before, g, last, hbefore, hlast, rfl⟩ := h
  exact ⟨_, g, last, .judged hbefore, hlast, rfl⟩

theorem Pass.refused {c : Tree} {rest : Feed Tree EditFault Tree} {cs : List (Call ε)}
    {r : Except ε (Option Tree)} (h : Pass rest cs r) :
    Pass (.yield c rest) (.candidate c (.ok ()) :: .predicate c (.ok false) :: cs) r := by
  obtain ⟨before, g, last, hbefore, hlast, rfl⟩ := h
  exact ⟨_, g, last, .refused hbefore, hlast, rfl⟩

/-! ## What calls are about -/

/-- The trees that the predicate is asked about. -/
def asked (cs : List (Call ε)) : List Tree := cs.filterMap Call.predicate?

/-- The trees that are announced as candidates. -/
def announced (cs : List (Call ε)) : List Tree := cs.filterMap Call.candidate?

/-- The trees that are announced as improvements. -/
def improvements (cs : List (Call ε)) : List Tree := cs.filterMap Call.improved?

theorem announced_append (cs ds : List (Call ε)) :
    announced (cs ++ ds) = announced cs ++ announced ds := List.filterMap_append

/-- Calls none of which raises. -/
def Untroubled (cs : List (Call ε)) : Prop := ∀ c ∈ cs, c.fault? = none

/-- Calls the last of which, and no other, raises. -/
def Fails (cs : List (Call ε)) (e : ε) : Prop :=
  ∃ before last, cs = before ++ [last] ∧ Untroubled before ∧ last.fault? = some e

theorem Untroubled.append {cs ds : List (Call ε)} (hcs : Untroubled cs) (hds : Untroubled ds) :
    Untroubled (cs ++ ds) := fun c hc =>
  (List.mem_append.1 hc).elim (hcs c) (hds c)

theorem Fails.append {cs ds : List (Call ε)} {e : ε} (hcs : Untroubled cs) (hds : Fails ds e) :
    Fails (cs ++ ds) e := by
  obtain ⟨before, last, rfl, hbefore, hlast⟩ := hds
  exact ⟨cs ++ before, last, (List.append_assoc ..).symm, hcs.append hbefore, hlast⟩

/-- The only call that raises is the last one. -/
theorem Fails.last {before after : List (Call ε)} {c : Call ε} {e e' : ε}
    (h : Fails (before ++ c :: after) e) (hc : c.fault? = some e') : after = [] ∧ e' = e := by
  obtain ⟨init, last, heq, hinit, hlast⟩ := h
  obtain rfl | ⟨after, d, rfl⟩ := after.eq_nil_or_concat
  · obtain ⟨rfl, hlast'⟩ := List.append_inj' heq rfl
    cases hlast'
    exact ⟨rfl, Option.some.inj (hc.symm.trans hlast)⟩
  · -- a call before the last one does not raise
    rw [List.concat_eq_append, ← List.cons_append, ← List.append_assoc] at heq
    obtain ⟨rfl, -⟩ := List.append_inj' heq rfl
    rw [hinit c (by simp)] at hc
    cases hc

/-- The answers about validity. -/
def judgements (cs : List (Call ε)) : List Bool :=
  cs.filterMap fun
    | .isValid _ (.ok b) => some b
    | _ => none

/-- What a feed yields as its questions are answered in turn, up to the first one that is left
open. -/
def Feed.drawn : List Bool → Feed Tree EditFault Tree → List Tree
  | _, .done => []
  | _, .failed _ => []
  | answers, .yield c rest => c :: drawn answers rest
  | [], .ask _ _ => []
  | b :: answers, .ask _ next => drawn answers (next b)

theorem Refuses.drawn {f g : Feed Tree EditFault Tree} {cs : List (Call ε)}
    (h : Refuses f cs g) (answers : List Bool) :
    f.drawn (judgements cs ++ answers) = announced cs ++ g.drawn answers := by
  induction h with
  | refl f => rfl
  | judged h ih => exact ih
  | refused h ih => rw [Feed.drawn]; exact congrArg _ ih

/-- What a pass announces is a prefix of the candidates that there are under the answers that it
gets; and it is all of them, if the pass comes to no improvement. -/
theorem Pass.announced_prefix {f : Feed Tree EditFault Tree} {cs : List (Call ε)}
    {r : Except ε (Option Tree)} (h : Pass f cs r) :
    announced cs <+: f.drawn (judgements cs) ∧
      (r = .ok none → announced cs = f.drawn (judgements cs)) := by
  obtain ⟨before, g, last, hbefore, hlast, rfl⟩ := h
  have hjudgements : judgements (before ++ last) = judgements before ++ judgements last :=
    List.filterMap_append
  rw [hjudgements, hbefore.drawn, announced_append, List.prefix_append_right_inj,
    List.append_cancel_left_eq]
  cases hlast with
  | nothing => exact ⟨List.prefix_refl _, fun _ => rfl⟩
  | isValidRaised t next e => exact ⟨List.nil_prefix, by simp⟩
  | _ => exact ⟨List.cons_prefix_cons.2 ⟨rfl, List.nil_prefix⟩, by simp⟩

/-! ## Runs -/

/-- The calls of all passes from a tree on, and what they come to. Each pass goes through the
candidates for the last improvement, and the first pass without one is the last. -/
inductive Run (path : Path) (window : Option Int) :
    Tree → List (Call ε) → Except ε Tree → Prop
  | last {best : Tree} {f : Feed Tree EditFault Tree} {cs : List (Call ε)}
      (hf : candidates best path = .ok f) (h : Pass (ordered window f) cs (.ok none)) :
      Run path window best cs (.ok best)
  | raised {best : Tree} {f : Feed Tree EditFault Tree} {cs : List (Call ε)} {e : ε}
      (hf : candidates best path = .ok f) (h : Pass (ordered window f) cs (.error e)) :
      Run path window best cs (.error e)
  | improved {best better : Tree} {f : Feed Tree EditFault Tree} {cs ds : List (Call ε)}
      {r : Except ε Tree} (hf : candidates best path = .ok f)
      (h : Pass (ordered window f) cs (.ok (some better))) (hrest : Run path window better ds r) :
      Run path window best (cs ++ ds) r

end Whittle.Search
