import Whittle.Tree.Written

/-!
# Paths

A path leads from the root of a tree to a value inside it: a field name steps into
a node, an index into a list. Reading and replacing follow a path in the same way,
step by step, so they fail on the same paths and for the same reason. A failure
names the steps up to the one that does not resolve.
-/

namespace Whittle

/-- A step of a path. Any value may turn up as a step; only field names and indices
ever resolve. -/
inductive Step where
  | field (name : String)
  | index (i : Int)
  | other (value : Tree)
deriving DecidableEq

/-- Steps from the root. -/
abbrev Path := List Step

/-- A step as a value. -/
def Step.toTree : Step → Tree
  | .field s => .str s
  | .index i => .int i
  | .other v => v

/-- The step that a value stands for. -/
def Step.ofTree : Tree → Step
  | .str s => .field s
  | .int i => .index i
  | v => .other v

/-- The written form of a step. -/
def Step.written (s : Step) : String := s.toTree.written

/-- The written form of a path: its steps in parentheses. -/
def Path.written (p : Path) : String := parenthesized (p.map Step.written)

/-- A path with dots between its steps; the empty path is the root. -/
def Path.dotted (p : Path) : String :=
  match ".".intercalate (p.map fun s => s.toTree.plain) with
  | "" => "<root>"
  | s => s

/-- Why a step does not resolve. -/
inductive PathFault where
  /-- There is nothing to step into. -/
  | absent
  /-- A list is entered by something that is no index. -/
  | notAnIndex (step : Step)
  | outOfRange (index : Int) (length : Nat)
  | noField (kind : Kind) (step : Step)
  /-- The value has no parts. -/
  | primitive (value : Tree)
  /-- The path resolves, but not to a position that holds nodes. -/
  | noPosition
deriving DecidableEq

/-- A fault and the path that shows it. -/
structure PathError where
  fault : PathFault
  path : Path
deriving DecidableEq

/-- The error as a sentence. -/
def PathError.message (e : PathError) : String :=
  let shown := e.path.written
  match e.fault with
  | .absent => "cannot step into an absent value at " ++ shown
  | .notAnIndex s => "list step must be an index, got " ++ s.written ++ " at " ++ shown
  | .outOfRange i n => "index " ++ Decimal.intText i ++ " out of range (length "
      ++ Decimal.natText n ++ ") at " ++ shown
  | .noField k s => k.name ++ " has no field " ++ s.written ++ " at " ++ shown
  | .primitive v => "cannot step into primitive " ++ v.written ++ " at " ++ shown
  | .noPosition => shown ++ " does not lead to a node position"

/-- The same error seen from one step further up. -/
def PathError.under (s : Step) (e : PathError) : PathError :=
  { e with path := s :: e.path }

namespace Tree

/-- The place of a step among the parts of a value: the index into a list, or the
position of a field. -/
def place (t : Tree) (s : Step) : Except PathFault Nat :=
  match t with
  | .absent => .error .absent
  | .list items =>
    match s with
    | .index i =>
      if 0 ≤ i ∧ i < items.length then .ok i.toNat
      else .error (.outOfRange i items.length)
    | _ => .error (.notAnIndex s)
  | .node k fields =>
    match s with
    | .field name =>
      match k.fieldNames.idxOf? name with
      | some i => if i < fields.length then .ok i else .error (.noField k s)
      | none => .error (.noField k s)
    | _ => .error (.noField k s)
  | _ => .error (.primitive t)

/-- The parts of a value: the items of a list, the fields of a node. -/
def parts : Tree → List Tree
  | .list items => items
  | .node _ fields => fields
  | _ => []

/-- The value with other parts. -/
def withParts (t : Tree) (parts : List Tree) : Tree :=
  match t with
  | .list _ => .list parts
  | .node k _ => .node k parts
  | t => t

/-- The part that a step leads to. -/
def child (t : Tree) (s : Step) : Except PathFault Tree := do
  let i ← t.place s
  return t.parts.getD i .absent

/-- The value with another part at a step. -/
def setChild (t : Tree) (s : Step) (v : Tree) : Tree :=
  match t.place s with
  | .ok i => t.withParts (t.parts.set i v)
  | .error _ => t

/-- The part at a step, or the fault as an error at that one step. -/
def childAt (t : Tree) (s : Step) : Except PathError Tree :=
  (t.child s).mapError fun f => ⟨f, [s]⟩

/-- The value at a path. An absent value at its end is a value like any other. -/
def get (t : Tree) : Path → Except PathError Tree
  | [] => .ok t
  | s :: p => do
    let c ← t.childAt s
    (c.get p).mapError (·.under s)

/-- The tree with another value at a path. -/
def replace (t : Tree) (p : Path) (v : Tree) : Except PathError Tree :=
  match p with
  | [] => .ok v
  | s :: p => do
    let c ← t.childAt s
    let c ← (c.replace p v).mapError (·.under s)
    return t.setChild s c

end Tree

end Whittle
