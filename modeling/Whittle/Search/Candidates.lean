import Whittle.Edit
import Whittle.Search.Feed

/-!
# Candidates

The whole trees that differ from a tree by one edit below a path and that a judge
accepts. The path has to lead to a position that may hold nodes; the position's declared
type decides which edits there are at its root. A list at the root of everything carries
no type.
-/

namespace Whittle.Search

/-- The type of the value in a field, or of the field of which the path's last step picks
an item. -/
def declaredType (owner : Tree) (step : Step) (path : Path) : Except PathError Position :=
  match owner, step with
  | .node k _, .field name =>
    match (k.slots.find? (·.name == name)).bind (·.position) with
    | some type => .ok type
    | none => .error ⟨.noPosition, path⟩
  | _, _ => .error ⟨.noPosition, path⟩

/-- The type of what a position type wraps. -/
def wrappedType? : Position → Option Position
  | .list t => some t
  | .maybe t => some t
  | .union _ => none

/-- The value at a path and the declared type of its position. -/
def resolve (t : Tree) (path : Path) : Except PathError (Tree × Option Position) := do
  match path.getLast? with
  | none => return (t, none)
  | some last =>
    let target ← t.get path
    let parent ← t.get path.dropLast
    match parent, path.dropLast.getLast? with
    | .list _, none => return (target, none)
    | .list _, some field =>
      let owner ← t.get path.dropLast.dropLast
      return (target, wrappedType? (← declaredType owner field path))
    | _, _ => return (target, some (← declaredType parent last path))

/-- The tree after an edit of the value `target` at a path. -/
def editedWhole (t target : Tree) (path : Path) (e : Edit) : Editing Tree := do
  let part ← e.apply target
  (t.replace path part).mapError .path

/-- The judge is asked about the tree after each edit, and those that it accepts are
yielded. -/
def judged (t target : Tree) (path : Path) (fault : Option EditFault) :
    List Edit → Feed Tree EditFault Tree
  | [] =>
    match fault with
    | none => .done
    | some f => .failed f
  | e :: es =>
    match editedWhole t target path e with
    | .error f => .failed f
    | .ok whole => .ask whole fun accepted =>
      if accepted then .yield whole (judged t target path fault es)
      else judged t target path fault es

/-- The candidates for a tree below a path. -/
def candidates (t : Tree) (path : Path) : Except PathError (Feed Tree EditFault Tree) := do
  let (target, type) ← resolve t path
  let series := edits type target
  return judged t target path series.fault series.items

end Whittle.Search
