import Whittle.Tree.Written

/-!
# Pieces

A tree is printed from the leaves up. A *piece* is a tree in which every node
carries what it is printed as, so that the text of a node is put together from its
pieces without looking any deeper. A node is printed as a statement, as an
expression, or as a fragment of its own; where something else is needed it has no
printer, and the error waits until its text is asked for.

Where a text is expected any other value is written as a sentence shows it. A node that
is printed as nothing but such a value keeps it: a text is made of it only where it
becomes part of one.
-/

namespace Whittle.Source

/-- Why a tree cannot be printed. -/
inductive PrintError where
  /-- A node of this kind is printed only as a part of others. -/
  | partOnly (kind : Kind)
  /-- No printer exists for a node type or operator in its place. -/
  | noPrinter (key : Tree)
  /-- A field holds something that its text cannot be made from. -/
  | malformed
deriving DecidableEq

/-- The error as a sentence. -/
def PrintError.message : PrintError → String
  | partOnly k => "cannot print a " ++ k.name ++ " on its own"
  | noPrinter key => key.written
  | malformed => "a field does not hold what is printed of it"

/-- A text, or the reason why there is none. -/
abbrev Printing := Except PrintError

/-- What a node is printed as. -/
inductive Form where
  /-- A statement, and whether another one must be kept apart from it by a semicolon. -/
  | statement (text : String) (needsSemicolon : Bool)
  /-- An expression and how tightly its outermost operator binds. -/
  | expression (value : Tree) (precedence : Nat)
  /-- A program, or a part of one that can be shown alone. -/
  | fragment (value : Tree)
deriving DecidableEq

/-- What a form prints. -/
def Form.value : Form → Tree
  | statement t _ => .str t
  | expression v _ => v
  | fragment v => v

/-- A tree whose nodes carry what they are printed as. -/
inductive Piece where
  | value (v : Tree)
  | list (items : List Piece)
  | node (kind : Kind) (fields : List Piece) (form : Printing Form)

namespace Piece

mutual
/-- The tree that a piece is of. -/
def tree : Piece → Tree
  | value v => v
  | list items => .list (trees items)
  | node k fields _ => .node k (trees fields)

/-- The trees that several pieces are of. -/
def trees : List Piece → List Tree
  | [] => []
  | p :: ps => tree p :: trees ps
end

/-- The kind of a node. -/
def kind : Piece → Printing Kind
  | node k _ _ => .ok k
  | _ => .error .malformed

/-- Whether the piece is a node of the given kind. -/
def isKind (k : Kind) : Piece → Bool
  | node l _ _ => l == k
  | _ => false

/-- Whether nothing is there. -/
def isAbsent : Piece → Bool
  | value .absent => true
  | _ => false

/-- The piece in a field. -/
def get (p : Piece) (field : String) : Printing Piece :=
  match p with
  | node k fields _ =>
    match k.fieldNames.idxOf? field with
    | some i => match fields[i]? with
      | some q => .ok q
      | none => .error .malformed
    | none => .error .malformed
  | _ => .error .malformed

/-- The pieces of a list. An empty text has none, like an empty list. -/
def items : Piece → Printing (List Piece)
  | list ps => .ok ps
  | value (.str "") => .ok []
  | _ => .error .malformed

/-- The pieces of a list in a field. -/
def itemsOf (p : Piece) (field : String) : Printing (List Piece) := do
  (← p.get field).items

/-- The value in a field. -/
def valueOf (p : Piece) (field : String) : Printing Tree := do
  return (← p.get field).tree

/-- The text in a field, or the value there as a sentence shows it. -/
def textOf (p : Piece) (field : String) : Printing String := do
  return (← p.valueOf field).plain

/-- Whether a value counts as true: it is neither absent nor false, zero or empty. -/
def holds : Piece → Bool
  | value .absent => false
  | value (.bool b) => b
  | value (.int i) => i != 0
  | value (.float x) => !x.isZero
  | value (.str s) => !s.isEmpty
  | value _ => true
  | list ps => !ps.isEmpty
  | node .. => true

/-- Whether the value in a field counts as true. -/
def holdsAt (p : Piece) (field : String) : Printing Bool := do
  return (← p.get field).holds

/-- The text in the `name` field of the node in a field. -/
def nameOf (p : Piece) (field : String) : Printing String := do
  (← p.get field).textOf "name"

end Piece

/-! ## Which kinds are printed as what -/

/-- The kinds that are printed as statements. -/
def statementKinds : List Kind := [
  .blockStatement, .breakStatement, .classDeclaration, .continueStatement,
  .debuggerStatement, .doWhileStatement, .emptyStatement, .expressionStatement,
  .forStatement, .functionDeclaration, .ifStatement, .labeledStatement, .returnStatement,
  .switchStatement, .switchStatementWithDefault, .throwStatement, .tryCatchStatement,
  .tryFinallyStatement, .variableDeclarationStatement, .whileStatement,
  .exportDeclaration, .exportDefault]

/-- The kinds that are printed as expressions. -/
def expressionKinds : List Kind := [
  .arrayExpression, .arrowExpression, .assignmentExpression, .awaitExpression,
  .binaryExpression, .callExpression, .classExpression, .compoundAssignmentExpression,
  .computedMemberExpression, .conditionalExpression, .functionExpression,
  .identifierExpression, .literalBooleanExpression, .literalNullExpression,
  .literalNumericExpression, .literalRegExpExpression, .literalStringExpression,
  .newExpression, .objectExpression, .staticMemberExpression, .templateExpression,
  .thisExpression, .unaryExpression, .updateExpression, .yieldExpression]

/-! ## Reading texts -/

namespace Piece

/-- The text of a statement, and whether it needs a semicolon after it. -/
def statement : Piece → Printing (String × Bool)
  | node k _ form =>
    if statementKinds.contains k then do
      match ← form with
      | .statement t s => return (t, s)
      | _ => throw .malformed
    else throw (.noPrinter (.str k.name))
  | _ => throw .malformed

/-- What an expression is printed as, in parentheses if it binds less tightly than its
place asks for. -/
def expressionValue (least : Nat) : Piece → Printing Tree
  | node k _ form =>
    if expressionKinds.contains k then do
      match ← form with
      | .expression v p => return if p < least then .str ("(" ++ v.plain ++ ")") else v
      | _ => throw .malformed
    else throw (.noPrinter (.str k.name))
  | _ => throw .malformed

/-- The text of an expression. -/
def expression (least : Nat) (p : Piece) : Printing String := do
  return (← p.expressionValue least).plain

/-- The expression in a field. -/
def expressionOf (p : Piece) (field : String) (least : Nat) : Printing String := do
  (← p.get field).expression least

/-- The statement in a field. -/
def statementOf (p : Piece) (field : String) : Printing (String × Bool) := do
  (← p.get field).statement

end Piece

/-- How tightly the forms of expressions bind. -/
def sequence : Nat := 0
def assignment : Nat := 1
def conditional : Nat := 2
def prefixed : Nat := 14
def postfixed : Nat := 15
def construction : Nat := 16
def call : Nat := 17
def taggedTemplate : Nat := 18
def memberAccess : Nat := 19
def primary : Nat := 20

/-- How tightly a binary operator binds. -/
def binaryPrecedence? (operator : String) : Option Nat :=
  if operator == "," then some 0
  else if operator == "||" then some 3
  else if operator == "&&" then some 4
  else if operator == "|" then some 5
  else if operator == "^" then some 6
  else if operator == "&" then some 7
  else if ["==", "!=", "===", "!=="].contains operator then some 8
  else if ["<", "<=", ">", ">=", "in", "instanceof"].contains operator then some 9
  else if ["<<", ">>", ">>>"].contains operator then some 10
  else if ["+", "-"].contains operator then some 11
  else if ["*", "/", "%"].contains operator then some 12
  else if operator == "**" then some 13
  else none

end Whittle.Source
