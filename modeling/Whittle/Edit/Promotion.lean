import Whittle.Edit.Simplification
import Whittle.Edit.Site

/-!
# Promotion

A node may take the place of one that contains it. Only the innermost enclosing
position that admits the node is used; repeated editing reaches the ones further
out. Where a statement is expected, an expression may be wrapped in an expression
statement and a list of statements in a block, unless such a wrapper already stands
around the node: the wrapper is then promoted by itself.
-/

namespace Whittle

/-- A change of a tree: another value at a position. -/
structure Edit where
  path : Path
  value : Tree

/-- Whether a position takes statements: those that take an expression statement do. -/
def takesStatements (type : Option Position) : Bool :=
  type.any (·.takes .expressionStatement)

namespace Kind

/-- Whether an expression statement may consist of a node of this kind. -/
def isExpression (k : Kind) : Bool :=
  expressionStatement.slots.any fun s => s.position.any (·.takes k)

/-- The field with the list of statements that a kind owns. -/
def statementField? (k : Kind) : Option String :=
  (k.slots.find? fun s => s.position.any (·.takesList expressionStatement)).map (·.name)

end Kind

/-- A block statement with the statements of a node. -/
def blockOf (node : Tree) (field : String) : Editing Tree := do
  match node.child (.field field) with
  | .ok statements => newNode .blockStatement [← newNode .block [statements]]
  | .error _ => throw .malformed

/-- The promotion of a node of kind `k` through the enclosing positions, innermost
first; `asExpression` and `asBlock` tell whether it may still be wrapped. -/
def promoteThrough (k : Kind) (node : Tree) (asExpression asBlock : Bool) :
    List Enclosing → Editing (Option Edit)
  | [] => return none
  | e :: rest => do
    let type := e.type.map (·.required)
    let asExpression := asExpression && e.occupant != some .expressionStatement
    let asBlock := asBlock && e.occupant != some .blockStatement
    if type.any (·.takes k) then return some ⟨e.path, node⟩
    else if asExpression && takesStatements type then
      return some ⟨e.path, ← newNode .expressionStatement [node]⟩
    else if asBlock && takesStatements type then
      match k.statementField? with
      | some field => return some ⟨e.path, ← blockOf node field⟩
      | none => return none
    else promoteThrough k node asExpression asBlock rest

/-- The promotion of a node of kind `k`, if an enclosing position admits it. -/
def promotion (k : Kind) (node : Tree) (enclosing : List Enclosing) :
    Editing (Option Edit) :=
  promoteThrough k node k.isExpression k.statementField?.isSome enclosing

end Whittle
