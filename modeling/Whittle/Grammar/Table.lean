import Whittle.Grammar.PositionType

/-!
# Grammar tables

A grammar gives every node type its fields. Its table keeps, for each type in
turn, the fields that can hold nodes, with their position types. A table is built
only if every type that it mentions is declared.

Where a name is given twice, the later entry stands in the earlier one's place.
-/

namespace Whittle.Grammar

variable {α : Type}

/-- Entries by name, in order. -/
abbrev Entries (κ β : Type) := List (κ × β)

namespace Entries

variable {κ β : Type} [DecidableEq κ]

/-- The entries with one more: in the place of an entry of that name, or at the end. -/
def put (key : κ) (value : β) : Entries κ β → Entries κ β
  | [] => [(key, value)]
  | e :: es => if e.1 = key then (key, value) :: es else e :: put key value es

/-- The entries that remain when a name given again replaces the earlier one. -/
def ofList (es : List (κ × β)) : Entries κ β :=
  es.foldl (fun acc e => acc.put e.1 e.2) []

/-- The value of a name. -/
def get? (key : κ) : Entries κ β → Option β
  | [] => none
  | e :: es => if e.1 = key then some e.2 else get? key es

/-- Whether a name has an entry. -/
def has (key : κ) (es : Entries κ β) : Bool :=
  (get? key es).isSome

end Entries

/-- A grammar as it is written: node types with their fields. -/
abbrev Declarations (α : Type) := Entries α (List (String × Spec α))

/-- Node types with the fields that hold nodes. -/
abbrev Table (α : Type) := Entries α (Entries String (PositionType α))

section Build

variable [DecidableEq α]

/-- The field's position type, or nothing if the field is primitive. -/
def slotType? (t : Spec α) : Except (GrammarError α) (Option (PositionType α)) :=
  match t.isPrimitive? with
  | none => throw .missingArgument
  | some true => return none
  | some false => do return some (← t.positionType)

/-- The fields of a type that hold nodes. -/
def nodeFields : List (String × Spec α) →
    Except (GrammarError α) (List (String × PositionType α))
  | [] => return []
  | (name, t) :: rest => do
    match ← slotType? t with
    | none => nodeFields rest
    | some p => return (name, p) :: (← nodeFields rest)

/-- Whether a table has a type that is called what a member of a union is called. -/
def declares (nameOf : α → String) (table : Table α) (member : Head α) : Bool :=
  table.any fun e => nameOf e.1 == member.word nameOf

/-- The first mention of a type that a table does not declare. -/
def firstUndeclared? (nameOf : α → String) (table : Table α) : Option (GrammarError α) :=
  table.findSome? fun (owner, fields) =>
    fields.findSome? fun (field, t) =>
      (t.members.find? fun m => !declares nameOf table m).map (.undeclared owner field)

/-- The table of a grammar. A type may be called like a primitive, and is then what a
union means by that name. -/
def tableOf (nameOf : α → String) (g : Declarations α) :
    Except (GrammarError α) (Table α) := do
  let table ← (Entries.ofList g).mapM fun (name, fields) => do
    return (name, Entries.ofList (← nodeFields fields))
  match firstUndeclared? nameOf table with
  | some e => throw e
  | none => return table

/-- Each type that owns a list of statements, with the field that it is in; a
statement is what `marker` is one of. -/
def statementListFields (marker : α) (table : Table α) : Entries α String :=
  Entries.ofList <| table.flatMap fun (name, fields) =>
    (fields.filter fun f => f.2.takesList marker).map fun f => (name, f.1)

end Build

end Whittle.Grammar
