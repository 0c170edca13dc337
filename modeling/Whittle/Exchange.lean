import Whittle.Json.Read
import Whittle.Json.Write
import Whittle.Node
import Whittle.Text.Lowercase

/-!
# Exchange of trees

Trees are exchanged as plain data: a node is an object with its kind under `type`
and its fields under their exchange names, which are written in camel case. On the
way in, names are accepted in either spelling, and every node is made with checks.
-/

namespace Whittle.Exchange

open Grammar

/-! ## Field names -/

/-- A name in camel case: the letter after a low line is raised. -/
def camelCase : List Char → List Char
  | [] => []
  | '_' :: c :: cs => c.toUpper :: camelCase cs
  | c :: cs => c :: camelCase cs

/-- The exchange name of a field. -/
def exchangeName (field : String) : String :=
  if field == "super_class" then "super"
  else if field == "is_global" then "global"
  else String.ofList (camelCase field.toList)

/-- Puts a low line before each ASCII capital that follows a small letter or a digit. -/
def splitHumps (afterSmall : Bool) : List Char → List Char
  | [] => []
  | c :: cs =>
    let rest := splitHumps (c.isLower || c.isDigit) cs
    if afterSmall && c.isUpper then '_' :: c :: rest else c :: rest

/-- The field that an exchange name, or a name in the field's own spelling, denotes. -/
def fieldName (name : String) : String :=
  if name == "super" then "super_class"
  else if name == "global" then "is_global"
  else Text.lowercase (String.ofList (splitHumps false name.toList))

/-! ## Plain data -/

mutual
/-- The plain data of a tree. -/
def toPlain : Tree → Plain
  | .absent => .null
  | .bool b => .bool b
  | .int i => .int i
  | .float x => .float x
  | .str s => .str s
  | .list items => .list (toPlainAll items)
  | .node k fields =>
    .object (("type", .str k.name)
      :: (k.fieldNames.map exchangeName).zip (toPlainAll fields))

def toPlainAll : List Tree → List Plain
  | [] => []
  | t :: ts => toPlain t :: toPlainAll ts
end

/-- The kind name that plain data stands for. -/
def kindName : Plain → KindName
  | .null => .value .absent
  | .bool b => .value (.bool b)
  | .int i => .value (.int i)
  | .float x => .value (.float x)
  | .str s => .value (.str s)
  | .list _ => .list
  | .object _ => .object

mutual
/-- The tree of plain data. The fields of an object are read in its own order before
its kind is looked at; of two spellings of one field the later one counts. -/
def ofPlain : Plain → Except NodeError Tree
  | .null => .ok .absent
  | .bool b => .ok (.bool b)
  | .int i => .ok (.int i)
  | .float x => .ok (.float x)
  | .str s => .ok (.str s)
  | .list items => do return .list (← ofPlainAll items)
  | .object es =>
    match Entries.get? "type" es with
    | none => throw (.untyped (es.map (·.1)))
    | some name => do
      Node.makeNamed (kindName name) (Entries.ofList (← fieldsOf es))

def ofPlainAll : List Plain → Except NodeError (List Tree)
  | [] => .ok []
  | v :: vs => do
    let t ← ofPlain v
    return t :: (← ofPlainAll vs)

/-- The fields that the entries of an object give. -/
def fieldsOf : List (String × Plain) → Except NodeError (List (String × Tree))
  | [] => .ok []
  | (name, v) :: es =>
    if name == "type" then fieldsOf es
    else do
      let t ← ofPlain v
      return (fieldName name, t) :: (← fieldsOf es)
end

/-! ## JSON -/

/-- Why a text is no tree. -/
inductive LoadError where
  | syntaxError
  | node (e : NodeError)

/-- The tree of a JSON text. -/
def ofJson (s : String) : Except LoadError Tree :=
  match Json.read? s with
  | none => .error .syntaxError
  | some v => (ofPlain v).mapError .node

/-- The JSON text of a tree, unless it has numbers that the layout does not allow. -/
def toJson? (l : Json.Layout) (t : Tree) : Option String :=
  Json.write? l (toPlain t)

/-- The JSON text of a tree on one line. -/
def toJson (t : Tree) : String :=
  Json.write .line 0 (toPlain t)

end Whittle.Exchange
