import Whittle.Path

/-!
# Sites

The positions of a tree at which edits are made, each with what an edit there has to
know: the type of the position, the kind of the node it is a field of, and the
positions around it.

A tree is walked with a queue, so that an edit of an outer position is made before every
edit inside it. When a position is visited its parts join the queue: those of a node in
the order of its fields, those of a list from the last item to the first, since later
code has fewer dependents. An absent value is no site.
-/

namespace Whittle

/-- The type that the items of a list at a position have, if it is a list position. -/
def itemType? : Option Position → Option Position
  | some (.list t) => some t
  | _ => none

/-- A position around another one: where it is, its type, and the kind of the node that
stands there. -/
structure Enclosing where
  path : Path
  type : Option Position
  occupant : Option Kind

/-- A position together with its surroundings. The root is not among the enclosing
positions, which are listed from the innermost outwards. -/
structure Surroundings where
  path : Path
  type : Option Position
  /-- The kind of the node that the position is a field of; none for the root and for
  items of lists. -/
  owner : Option Kind
  enclosing : List Enclosing

/-- A position and the value that stands there. -/
structure Site where
  surroundings : Surroundings
  value : Tree

/-- A position that waits in the queue. -/
structure Pending where
  path : Path
  /-- The types of all positions from the root down to this one. -/
  types : List (Option Position)
  /-- The kinds of the nodes at the positions from the root down to the one around this
  one; none where a list stands. -/
  occupants : List (Option Kind)
  value : Tree

namespace Pending

/-- The root of a tree. -/
def root (type : Option Position) (t : Tree) : Pending := ⟨[], [type], [], t⟩

/-- The type of the position itself. -/
def type (p : Pending) : Option Position := p.types.getLast?.join

/-- The kind of the node that the position is a field of. -/
def owner (p : Pending) : Option Kind := p.occupants.getLast?.join

/-- The positions between the root and this one, from the innermost outwards. The one
whose path has `i` steps has the `i`-th type and the `i`-th occupant. -/
def enclosing (p : Pending) : List Enclosing :=
  (List.range' 1 (p.types.length - 2)).reverse.map fun i =>
    ⟨p.path.take i, (p.types[i]?).join, (p.occupants[i]?).join⟩

def site (p : Pending) : Site := ⟨⟨p.path, p.type, p.owner, p.enclosing⟩, p.value⟩

/-- A position one step further down, where `occupant` stands at this one. -/
def enter (p : Pending) (occupant : Option Kind) (step : Step) (type : Option Position)
    (v : Tree) : Pending :=
  ⟨p.path ++ [step], p.types ++ [type], p.occupants ++ [occupant], v⟩

/-- The positions of the items of a list, the last one first. -/
def items (p : Pending) (i : Nat) : List Tree → List Pending
  | [] => []
  | t :: ts => p.items (i + 1) ts ++ [p.enter none (.index i) (itemType? p.type) t]

/-- The fields of a node that can hold nodes. -/
def fields (p : Pending) (k : Kind) : List Language.Slot → List Tree → List Pending
  | slot :: slots, t :: ts =>
    match slot.position with
    | some type => p.enter (some k) (.field slot.name) (some type) t :: p.fields k slots ts
    | none => p.fields k slots ts
  | _, _ => []

/-- What joins the queue when the position is visited. -/
def parts (p : Pending) : List Pending :=
  match p.value with
  | .list ts => p.items 0 ts
  | .node k ts => p.fields k k.slots ts
  | _ => []

end Pending

/-- The positions that are visited from a queue on, in order, as far as the fuel goes. -/
def visits : (fuel : Nat) → List Pending → List Pending
  | 0, _ => []
  | _, [] => []
  | fuel + 1, p :: queue => p :: visits fuel (queue ++ p.parts)

mutual
/-- The number of values in a tree: enough fuel to visit all of its positions. -/
def Tree.extent : Tree → Nat
  | .list items => 1 + extentAll items
  | .node _ fields => 1 + extentAll fields
  | _ => 1

/-- The number of values in a list of trees. -/
def extentAll : List Tree → Nat
  | [] => 0
  | t :: ts => t.extent + extentAll ts
end

/-- The sites of a tree whose root has the given type, in order. -/
def sites (type : Option Position) (t : Tree) : List Site :=
  ((visits t.extent [.root type t]).filter fun p => !p.value.isAbsent).map Pending.site

end Whittle
