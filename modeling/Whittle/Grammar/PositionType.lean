import Whittle.Grammar.Spec

/-!
# Position types

The types that a traversal works with. A position holds nodes of a set of types,
a list, or an optional value; nested unions are collapsed and a single node type
is a set of one. The written type of a field gives the type of its position, unless it
is a union that has a list or an optional among its members.
-/

namespace Whittle.Grammar

/-- The type of a position in a tree. -/
inductive PositionType (α : Type) where
  | union (members : List (Head α))
  | list (element : PositionType α)
  | maybe (inner : PositionType α)
deriving DecidableEq

/-- Why a grammar cannot be used. -/
inductive GrammarError (α : Type) where
  /-- A union has lists or optionals among its members. -/
  | nontrivialUnion (type : Spec α) (containers : List (Head α))
  /-- A list or optional has no argument. -/
  | missingArgument
  /-- A field mentions a type that the grammar does not declare. -/
  | undeclared (owner : α) (field : String) (member : Head α)

/-- Words in the order of their characters. -/
def sortWords (ws : List String) : List String :=
  ws.mergeSort fun a b => decide (a ≤ b)

namespace GrammarError

variable {α : Type}

/-- The error as a sentence. -/
def message (nameOf : α → String) : GrammarError α → String
  | nontrivialUnion t containers =>
    "union is nontrivial: " ++ t.text nameOf ++ " contains "
      ++ Text.quotedList (sortWords (containers.map (·.word nameOf)))
  | missingArgument => "a list or an optional type has no argument"
  | undeclared owner field member =>
    nameOf owner ++ "." ++ field ++ " refers to undeclared type "
      ++ Text.quoted (member.word nameOf)

end GrammarError

/-- The type of the position that a field is, if its written type is in order. -/
def Spec.positionType {α : Type} [DecidableEq α] :
    Spec α → Except (GrammarError α) (PositionType α)
  | .of .list (a :: _) => do return .list (← a.positionType)
  | .of .maybe (a :: _) => do return .maybe (← a.positionType)
  | .of .list [] => throw .missingArgument
  | .of .maybe [] => throw .missingArgument
  | .of h as =>
    let members := (Spec.of h as).members.eraseDups
    match members.filter Head.isContainer with
    | [] => .ok (.union members)
    | nested => .error (.nontrivialUnion (.of h as) nested)

namespace PositionType

variable {α : Type}

/-- The written form of a position type, the members of a union in order. -/
def text (nameOf : α → String) : PositionType α → String
  | union ms => "Union(" ++ ", ".intercalate (sortWords (ms.map (·.word nameOf))) ++ ")"
  | list t => "List(" ++ t.text nameOf ++ ")"
  | maybe t => "Maybe(" ++ t.text nameOf ++ ")"

/-- The members of the union that lists and optionals are wrapped around. -/
def members : PositionType α → List (Head α)
  | union ms => ms
  | list t => t.members
  | maybe t => t.members

/-- The type without optional wrappers around it. -/
def required : PositionType α → PositionType α
  | maybe t => t.required
  | t => t

/-- Whether a node of a type may itself stand at the position. -/
def takes [DecidableEq α] (a : α) : PositionType α → Bool
  | union ms => ms.contains (.named a)
  | _ => false

/-- Whether the position is a list of things that a node of a type is among. -/
def takesList [DecidableEq α] (a : α) : PositionType α → Bool
  | list t => t.takes a
  | _ => false

end PositionType

end Whittle.Grammar
