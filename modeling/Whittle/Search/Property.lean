import Whittle.Search.Reduction
import Whittle.Source

/-!
# Properties

A small language of properties that a search can preserve or ask of its candidates:
what occurs in a tree, its size, its source text, its validity, and their
combinations. Besides, answers may be fixed in advance by the number of the call, and a
call may crash; a search must be able to live with both.
-/

namespace Whittle.Search

/-- A property of trees. -/
inductive Property where
  | always (answer : Bool)
  /-- A node of the kind with this name occurs. -/
  | contains (name : String)
  /-- At least so many nodes of the kind with this name occur. -/
  | atLeast (name : String) (n : Int)
  /-- The source text contains a text. -/
  | prints (part : String)
  | minSize (n : Int)
  | maxSize (n : Int)
  | valid (answer : Bool)
  | not (p : Property)
  | all (ps : List Property)
  | any (ps : List Property)
  /-- The answers of the first calls; no after them. -/
  | script (answers : List Bool)
  /-- Yes, but this call crashes. -/
  | raiseAt (call : Int)

/-- What is told about candidates. -/
inductive Callback where
  | candidate
  | improved
deriving DecidableEq

/-- The name of a callback. -/
def Callback.name : Callback → String
  | candidate => "candidate"
  | improved => "improved"

/-- Why a property or a callback raises. -/
inductive OracleFault where
  | crashed (call : Nat)
  | callbackFailed (c : Callback)
  /-- The source text that is asked for does not exist. -/
  | printing (e : Source.PrintError)

/-- The fault as a sentence. -/
def OracleFault.message : OracleFault → String
  | crashed n => "oracle crashed on call " ++ Decimal.natText n
  | callbackFailed c => c.name ++ " callback failed"
  | printing e => e.message

/-- Whether a text occurs in another one. -/
def occursIn (part : List Char) : List Char → Bool
  | [] => part.isEmpty
  | c :: cs => part.isPrefixOf (c :: cs) || occursIn part cs

/-- Whether a text occurs in what is printed: as a part of a text, or as an item of a
list. -/
def occursAs (part : String) : Tree → Bool
  | .str s => occursIn part.toList s.toList
  | .list items => items.any (·.isText part)
  | _ => false

mutual
/-- The answer about a tree at the given call. Of several properties no more are looked at
than are needed, from left to right. -/
def Property.eval (call : Nat) (t : Tree) : Property → Except OracleFault Bool
  | .always b => .ok b
  | .contains name => .ok (t.containsNamed name)
  | .atLeast name n => .ok (decide (n ≤ t.countNamed name))
  | .prints part =>
    match t.printed with
    | .ok v => .ok (occursAs part v)
    | .error e => .error (.printing e)
  | .minSize n => .ok (decide (n ≤ t.size))
  | .maxSize n => .ok (decide ((t.size : Int) ≤ n))
  | .valid b => .ok (t.isValid == b)
  | .not p => do return !(← p.eval call t)
  | .all ps => Property.evalAll call t ps
  | .any ps => Property.evalAny call t ps
  | .script answers => .ok (answers.getD (call - 1) false)
  | .raiseAt n => if (call : Int) = n then .error (.crashed call) else .ok true

/-- Whether all of several properties hold. -/
def Property.evalAll (call : Nat) (t : Tree) : List Property → Except OracleFault Bool
  | [] => .ok true
  | p :: ps =>
    match p.eval call t with
    | .ok true => Property.evalAll call t ps
    | r => r

/-- Whether one of several properties holds. -/
def Property.evalAny (call : Nat) (t : Tree) : List Property → Except OracleFault Bool
  | [] => .ok false
  | p :: ps =>
    match p.eval call t with
    | .ok false => Property.evalAny call t ps
    | r => r
end

/-- Asks for a property; the state is the number of calls made so far. -/
def Property.ask (p : Property) (t : Tree) : Asking Nat OracleFault Bool := fun calls =>
  (p.eval (calls + 1) t, calls + 1)

/-- What happened outside a search: the calls made, and what the callbacks were told, last
first. -/
structure Journal where
  predicateCalls : Nat := 0
  validityCalls : Nat := 0
  candidates : Nat := 0
  improved : Nat := 0
  events : List (Callback × Tree) := []

/-- A search with given properties and with callbacks that keep a journal. -/
structure Trial where
  predicate : Property
  isValid : Option Property
  /-- Whether the callbacks are told anything. -/
  callbacks : Bool
  /-- The call of a callback that raises. -/
  raiseIn : Option (Callback × Int)

namespace Trial

/-- Notes what a callback is told, and raises if it is its turn. -/
def note (trial : Trial) (c : Callback) (t : Tree) : Asking Journal OracleFault Unit :=
  fun j =>
    if trial.callbacks then
      let j := { j with events := (c, t) :: j.events }
      let (calls, j) := match c with
        | .candidate => (j.candidates + 1, { j with candidates := j.candidates + 1 })
        | .improved => (j.improved + 1, { j with improved := j.improved + 1 })
      if trial.raiseIn = some (c, (calls : Int)) then (.error (.callbackFailed c), j)
      else (.ok (), j)
    else (.ok (), j)

/-- The hooks of a trial. -/
def hooks (trial : Trial) : Hooks Journal OracleFault where
  predicate t := fun j =>
    let (r, n) := trial.predicate.ask t j.predicateCalls
    (r, { j with predicateCalls := n })
  isValid t := fun j =>
    match trial.isValid with
    | none => (.ok t.isValid, j)
    | some p =>
      let (r, n) := p.ask t j.validityCalls
      (r, { j with validityCalls := n })
  onCandidate := trial.note .candidate
  onImproved := trial.note .improved

/-- Runs the search of a trial. -/
def run (trial : Trial) (path : Path) (window : Option Int) (t : Tree) :
    Outcome Journal OracleFault :=
  reduce trial.hooks path window t {}

end Trial

end Whittle.Search
