import Whittle.Source.Expression
import Whittle.Source.Statement

/-!
# Source text

The text of a tree as a program, as short as the grammar allows without renaming
anything: no white space except where two words would merge, semicolons only
between statements that need them, parentheses only where precedence or the
beginning of a statement demands them.
-/

namespace Whittle

namespace Source

/-- What a program is printed as, or a part of one that can be shown alone. -/
def fragmentValue (k : Kind) (p : Piece) : Printing Tree := do
  match k with
  | .script => return .str (← Piece.body (← p.get "directives") (← p.get "statements"))
  | .esModule => return .str (← Piece.body (← p.get "directives") (← p.get "items"))
  | .block => return .str (← p.block)
  | .functionBody => return .str (← p.functionBody)
  | .formalParameters => return .str (← p.parameters)
  | .directive => return .str (directiveText (← p.valueOf "raw_value"))
  | .templateElement => p.valueOf "raw_value"
  | _ => throw (.partOnly k)

/-- What a node is printed as, from the pieces in its fields. -/
def formOf (k : Kind) (fields : List Piece) : Printing Form :=
  let p := Piece.node k fields (.error .malformed)
  if statementKinds.contains k then do
    let (t, semicolon) ← statementText k p
    return .statement t semicolon
  else if expressionKinds.contains k then do
    let (v, precedence) ← expressionValue k p
    return .expression v precedence
  else do return .fragment (← fragmentValue k p)

mutual
/-- The piece of a tree. -/
def pieceOf : Tree → Piece
  | .list items => .list (piecesOf items)
  | .node k fields =>
    let pieces := piecesOf fields
    .node k pieces (formOf k pieces)
  | v => .value v

/-- The pieces of several trees. -/
def piecesOf : List Tree → List Piece
  | [] => []
  | t :: ts => pieceOf t :: piecesOf ts
end

end Source

open Source in
/-- What a tree is printed as: a text, unless it is nothing but a value that stands where
a text is expected. -/
def Tree.printed (t : Tree) : Printing Tree :=
  match pieceOf t with
  | .node _ _ form => form.map Form.value
  | _ => .error .malformed

open Source in
/-- The source text of a tree. -/
def Tree.source (t : Tree) : Printing String := do
  return (← t.printed).plain

end Whittle
