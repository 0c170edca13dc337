import Whittle.Exchange
import Whittle.Search.Property

/-!
# Editing sessions

A sequence of steps, each of which changes the current tree. A step that fails leaves the
tree as it is.
-/

namespace Whittle

open Search

/-- A step of a session. -/
inductive SessionStep where
  /-- One of the single edits, counted around the end of their list. -/
  | edit (pick : Int)
  /-- One of the candidates below a path that are valid programs. -/
  | validEdit (pick : Int) (path : Path)
  | replace (path : Path) (value : Tree)
  /-- Puts the value at one path to another one. -/
  | move (source target : Path)
  /-- Writes the tree as JSON and reads it back. -/
  | load
  | reduce (predicate : Property) (path : Path)

/-- Why a step fails. -/
inductive StepError where
  | path (e : PathError)
  | edit (f : EditFault)
  | load (e : Exchange.LoadError)
  | search (e : SearchError OracleFault)

/-- What a step comes to: the tree after it, or an error; and for the choice of an edit,
how many there were. -/
structure StepResult where
  outcome : Except StepError Tree
  choices : Option Nat

/-- The tree that a number picks out of a list, or the current one if the list is empty. -/
def pickFrom (t : Tree) (pick : Int) (choices : List Tree) : StepResult :=
  ⟨.ok (choices.getD (pick % choices.length).toNat t), some choices.length⟩

/-- All candidates below a path that are valid programs. -/
def validVariants (t : Tree) (path : Path) : Except StepError (List Tree) := do
  match candidates t path with
  | .error e => throw (.path e)
  | .ok feed =>
    let judge : Tree → Asking Unit Empty Bool := fun t s => (.ok t.isValid, s)
    let (h, _) := collect judge none feed ()
    match h.ending with
    | .failed f => throw (.edit f)
    | _ => return h.items

/-- Takes a step. -/
def SessionStep.run (t : Tree) : SessionStep → StepResult
  | .edit pick =>
    let all := variants none t
    match all.fault with
    | some f => ⟨.error (.edit f), none⟩
    | none => pickFrom t pick all.items
  | .validEdit pick path =>
    match validVariants t path with
    | .error e => ⟨.error e, none⟩
    | .ok all => pickFrom t pick all
  | .replace path value => ⟨(t.replace path value).mapError .path, none⟩
  | .move source target => ⟨do
      let v ← (t.get source).mapError .path
      (t.replace target v).mapError .path, none⟩
  | .load => ⟨(Exchange.ofJson (Exchange.toJson t)).mapError .load, none⟩
  | .reduce predicate path =>
    let trial : Trial := ⟨predicate, none, false, none⟩
    ⟨(trial.run path none t).result.mapError .search, none⟩

/-- The tree after a step; the same one if the step fails. -/
def StepResult.tree (t : Tree) (r : StepResult) : Tree :=
  match r.outcome with
  | .ok t => t
  | .error _ => t

/-- The results of the steps of a session, each with the tree after it. -/
def runSession (t : Tree) : List SessionStep → List (StepResult × Tree)
  | [] => []
  | s :: ss =>
    let r := s.run t
    let t := r.tree t
    (r, t) :: runSession t ss

end Whittle
