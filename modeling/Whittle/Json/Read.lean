import Whittle.Json.Token

/-!
# Reading JSON

Tokens are put together into a value by a machine with a stack of the lists and
objects that are still open. An object keeps the last value of a key, in the place
of the first.
-/

namespace Whittle.Json

/-- A list or object that is still open, its parts last first. -/
inductive Open where
  | list (items : List Plain)
  | object (entries : List (String × Plain))
  /-- An object whose last key waits for its value. -/
  | member (entries : List (String × Plain)) (key : String)

/-- What may come next. -/
inductive Mode where
  /-- A value. -/
  | value
  /-- A value, or the end of the list just opened. -/
  | firstItem
  /-- A key, or the end of the object just opened. -/
  | firstKey
  | key
  | colon
  /-- A comma, or the end of what is open. -/
  | next
  /-- Nothing: the value is complete. -/
  | complete (v : Plain)

/-- The machine. -/
structure Machine where
  stack : List Open
  mode : Mode

/-- Puts a finished value where it belongs. -/
def deliver (v : Plain) : List Open → Option Machine
  | [] => some ⟨[], .complete v⟩
  | .list items :: st => some ⟨.list (v :: items) :: st, .next⟩
  | .member es k :: st => some ⟨.object ((k, v) :: es) :: st, .next⟩
  | .object _ :: _ => none

/-- A token where a value is expected. -/
def beginValue (st : List Open) : Token → Option Machine
  | .openList => some ⟨.list [] :: st, .firstItem⟩
  | .openObject => some ⟨.object [] :: st, .firstKey⟩
  | .text s => deliver (.str s) st
  | .scalar v => deliver v st
  | _ => none

/-- A token where a key is expected. -/
def beginMember : List Open → Token → Option Machine
  | .object es :: st, .text k => some ⟨.member es k :: st, .colon⟩
  | _, _ => none

/-- The end of the innermost list or object. -/
def close : List Open → Token → Option Machine
  | .list items :: st, .closeList => deliver (.list items.reverse) st
  | .object es :: st, .closeObject =>
    deliver (.object (Grammar.Entries.ofList es.reverse)) st
  | _, _ => none

/-- One token more. -/
def Machine.feed (m : Machine) (t : Token) : Option Machine :=
  match m.mode with
  | .value => beginValue m.stack t
  | .firstItem =>
    match t with
    | .closeList => close m.stack t
    | _ => beginValue m.stack t
  | .firstKey =>
    match t with
    | .closeObject => close m.stack t
    | _ => beginMember m.stack t
  | .key => beginMember m.stack t
  | .colon =>
    match t with
    | .colon => some ⟨m.stack, .value⟩
    | _ => none
  | .next =>
    match t, m.stack with
    | .comma, .list _ :: _ => some ⟨m.stack, .value⟩
    | .comma, .object _ :: _ => some ⟨m.stack, .key⟩
    | _, _ => close m.stack t
  | .complete _ => none

/-- Feeds tokens in turn. -/
def Machine.run (m : Machine) : List Token → Option Machine
  | [] => some m
  | t :: ts =>
    match m.feed t with
    | some m => m.run ts
    | none => none

/-- The value that tokens make up. -/
def ofTokens? (ts : List Token) : Option Plain := do
  match (← Machine.run ⟨[], .value⟩ ts).mode with
  | .complete v => some v
  | _ => none

/-- The value of a JSON text. -/
def read? (s : String) : Option Plain := do
  ofTokens? (← tokens? s)

end Whittle.Json
