import Whittle.Edit.Promotion

/-!
# Single edits

All changes of a tree at one position. At each site the order is: drop an item of a
list, remove an optional value, promote the node, replace it by `null` or by the empty
statement, simplify it, clear one of its flags.
-/

namespace Whittle

/-- The nodes that stand for any expression and any statement. -/
def sentinelKinds : List Kind := [.literalNullExpression, .emptyStatement]

/-- Whether items may be dropped from a list. The parts of a template go in pairs, and a
variable declaration keeps its last declarator. -/
def mayDrop (owner : Option Kind) (items : List Tree) : Bool :=
  owner != some .templateExpression
    && !(owner == some .variableDeclaration && items.length == 1)

/-- A list without each of its items in turn, the last item first. -/
def withoutEach : List Tree → List (List Tree)
  | [] => []
  | t :: ts => (withoutEach ts).map (t :: ·) ++ [ts]

/-- The values of a list of fields with one that is *true* made *false*, for each such
field in turn. -/
def withFlagCleared : List Tree → List (List Tree)
  | [] => []
  | t :: ts =>
    (if t.isTrue then [.bool false :: ts] else []) ++ (withFlagCleared ts).map (t :: ·)

/-- The sentinels that may replace a node of kind `k` at a position. -/
def sentinels (type : Option Position) (k : Kind) : List Kind :=
  sentinelKinds.filter fun s => k != s && type.any (·.takes s)

/-- Whether a position is optional. -/
def isOptional : Option Position → Bool
  | some (.maybe _) => true
  | _ => false

namespace Site

/-- The edit that puts another value at the site. -/
def put (s : Site) (v : Tree) : Edit := ⟨s.surroundings.path, v⟩

/-- The removal of an optional value. -/
def removals (s : Site) : List Edit :=
  if isOptional s.surroundings.type then [s.put .absent] else []

/-- The edits of a node at the site that keep within the site. -/
def replacements (s : Site) (k : Kind) (fields : List Tree) : Series EditFault Tree :=
  Series.mapList (fun k => newNode k []) (sentinels s.surroundings.type k)
    ++ simplifications k fields
    ++ .ofList ((withFlagCleared fields).map (.node k))

/-- The edits of a site, in order. -/
def edits (s : Site) : Series EditFault Edit :=
  match s.value with
  | .list items =>
    if mayDrop s.surroundings.owner items then
      .ofList ((withoutEach items).map fun rest => s.put (.list rest))
    else .empty
  | .node k fields =>
    .ofList s.removals
      ++ (match promotion k s.value s.surroundings.enclosing with
        | .ok e => .ofList e.toList
        | .error f => .broken f)
      ++ (s.replacements k fields).map s.put
  | .absent => .empty
  | _ => .ofList s.removals ++ .broken .malformed

end Site

/-- The edits of a tree whose root has the given type, in order. -/
def edits (type : Option Position) (t : Tree) : Series EditFault Edit :=
  .concat ((sites type t).map (·.edits))

/-- The tree after an edit. -/
def Edit.apply (e : Edit) (t : Tree) : Editing Tree :=
  (t.replace e.path e.value).mapError .path

/-- The trees one edit away from a tree, in order. -/
def variants (type : Option Position) (t : Tree) : Series EditFault Tree :=
  (edits type t).mapExcept (·.apply t)

end Whittle
