import Whittle.Tree.Written

/-!
# Checked construction

A node may be put together unchecked, so that trees can be formed that their
surroundings do not allow. The functions here check instead: the kind must exist,
every field must be given and no other, and every value must be admitted by the
type of its field. Nested nodes are judged by their kinds only.
-/

namespace Whittle

open Grammar

/-- What stands where the name of a kind is expected. -/
inductive KindName where
  | value (v : Tree)
  | list
  | object

/-- Why a node cannot be made. -/
inductive NodeError where
  | unknownKind (name : Tree)
  | listAsName
  | objectAsName
  | missingFields (kind : Kind) (names : List String)
  | unexpectedFields (kind : Kind) (names : List String)
  | notAdmitted (kind : Kind) (field : String) (value : Tree) (type : TypeSpec)
  /-- An object that should become a node does not say of which kind. -/
  | untyped (keys : List String)

/-- The error as a sentence. -/
def NodeError.message : NodeError → String
  | unknownKind v => "unknown node type " ++ v.written
  | listAsName => "unhashable type: " ++ Text.quoted "list"
  | objectAsName => "unhashable type: " ++ Text.quoted "dict"
  | missingFields k names =>
    k.name ++ " is missing field(s) " ++ Text.quotedList names
  | unexpectedFields k names =>
    k.name ++ " has no field(s) " ++ Text.quotedList names
  | notAdmitted k field v t =>
    k.name ++ "." ++ field ++ " does not admit " ++ v.written ++ " (expected "
      ++ t.written ++ ")"
  | untyped keys =>
    "object without a " ++ Text.quoted "type" ++ " key: "
      ++ Text.quotedList (sortWords keys)

/-- The kind that is named. -/
def KindName.kind : KindName → Except NodeError Kind
  | .value (.str s) =>
    match Kind.ofName? s with
    | some k => .ok k
    | none => .error (.unknownKind (.str s))
  | .value v => .error (.unknownKind v)
  | .list => .error .listAsName
  | .object => .error .objectAsName

namespace Node

/-- Checks the values against the slots, in order. -/
def checkValues (k : Kind) : List Language.Slot → List Tree → Except NodeError Unit
  | [], [] => .ok ()
  | s :: ss, v :: vs =>
    if s.type.admits v then checkValues k ss vs
    else .error (.notAdmitted k s.name v s.type)
  | ss, _ => .error (.missingFields k (ss.map (·.name)))

/-- The node of a kind with the given values for its fields, in order. -/
def make (k : Kind) (values : List Tree) : Except NodeError Tree := do
  checkValues k k.slots values
  return .node k values

/-- The node of a named kind with the given values for its named fields. Missing
fields are reported first, then unexpected ones, then the first value that is not
admitted. -/
def makeNamed (name : KindName) (fields : Entries String Tree) : Except NodeError Tree := do
  let k ← name.kind
  match k.fieldNames.filter fun f => !fields.has f with
  | [] =>
    match (fields.map (·.1)).filter fun f => !k.fieldNames.contains f with
    | [] => make k (k.fieldNames.filterMap fields.get?)
    | unexpected => throw (.unexpectedFields k (sortWords unexpected))
  | missing => throw (.missingFields k missing)

end Node

end Whittle
