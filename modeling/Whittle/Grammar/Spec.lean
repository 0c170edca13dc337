import Whittle.Text.Quoted

/-!
# Field types

The type of a field as a grammar's author writes it. It applies a head to
arguments: a union to its members, a list or an optional to what it holds, an
enumeration to its values. A primitive and the name of a node type stand alone.
Nothing stops an author from writing too few or too many arguments; what such a
type means is fixed here too.

The names of node types may be of any type `α`.
-/

namespace Whittle.Grammar

/-- What a field type begins with. -/
inductive Head (α : Type) where
  | union
  | list
  | maybe
  | boolean
  | string
  | number
  | enum (values : List String)
  | named (name : α)
deriving DecidableEq

/-- A field type: a head applied to arguments. -/
inductive Spec (α : Type) where
  | of (head : Head α) (arguments : List (Spec α))

namespace Head

variable {α : Type}

/-- The word that a head is written with, given the names of node types. -/
def word (nameOf : α → String) : Head α → String
  | union => "Union"
  | list => "List"
  | maybe => "Maybe"
  | boolean => "Boolean"
  | string => "String"
  | number => "Number"
  | enum _ => "Enum"
  | named a => nameOf a

/-- The head that a word denotes. An enumeration written as a bare word has no
values. -/
def ofWord (s : String) : Head String :=
  if s == "Union" then union
  else if s == "List" then list
  else if s == "Maybe" then maybe
  else if s == "Boolean" then boolean
  else if s == "String" then string
  else if s == "Number" then number
  else if s == "Enum" then enum []
  else named s

/-- The values of an enumeration are no part of its name. -/
def bare : Head α → Head α
  | enum _ => enum []
  | h => h

/-- Primitive values hold no nodes. -/
def isPrimitive : Head α → Bool
  | boolean | string | number | enum _ => true
  | _ => false

/-- Heads that hold values of another type. -/
def isContainer : Head α → Bool
  | union | list | maybe => true
  | _ => false

/-- The values of an enumeration. -/
def values : Head α → List String
  | enum vs => vs
  | _ => []

end Head

namespace Spec

variable {α : Type}

def head : Spec α → Head α
  | of h _ => h

def arguments : Spec α → List (Spec α)
  | of _ as => as

/-! ## Writing types -/

/-- A type that stands alone. -/
def atom (h : Head α) : Spec α := of h []

/-- The type of a node. -/
def node (a : α) : Spec α := atom (.named a)

def boolean : Spec α := atom .boolean
def string : Spec α := atom .string
def number : Spec α := atom .number
def enum (values : List String) : Spec α := atom (.enum values)
def union (members : List (Spec α)) : Spec α := of .union members
def list (element : Spec α) : Spec α := of .list [element]
def maybe (inner : Spec α) : Spec α := of .maybe [inner]

/-- The union of several node types. -/
def unionOf (names : List α) : Spec α := union (names.map node)

/-! ## The written form -/

mutual
/-- A type as it is written: the head, and its arguments in parentheses if it has
any. -/
def text (nameOf : α → String) : Spec α → String
  | of h as =>
    match h.values.map Text.quoted ++ texts nameOf as with
    | [] => h.word nameOf
    | args => h.word nameOf ++ "(" ++ ", ".intercalate args ++ ")"

/-- The written forms of several types. -/
def texts (nameOf : α → String) : List (Spec α) → List String
  | [] => []
  | t :: ts => text nameOf t :: texts nameOf ts
end

/-! ## Structure -/

mutual
/-- The heads of the members of a union, members of nested unions included. A type
that is no union is its own only member. -/
def members : Spec α → List (Head α)
  | of .union as => membersAll as
  | of h _ => [h.bare]

/-- The members of several types. -/
def membersAll : List (Spec α) → List (Head α)
  | [] => []
  | t :: ts => members t ++ membersAll ts
end

/-- Whether a type is primitive, or a list or optional of such a type. A list or
optional without an argument has no answer. -/
def isPrimitive? : Spec α → Option Bool
  | of .list (a :: _) => isPrimitive? a
  | of .maybe (a :: _) => isPrimitive? a
  | of .list [] => none
  | of .maybe [] => none
  | of h _ => some h.isPrimitive

end Spec

end Whittle.Grammar
