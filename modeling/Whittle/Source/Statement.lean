import Whittle.Source.Member

/-!
# Statements

The text of a statement from the pieces in its fields, and whether it must be kept
apart from a following statement by a semicolon.
-/

namespace Whittle.Source

namespace Piece

/-- Whether an `else` put after the statement would be taken for a part of it. -/
def endsInOpenIf : Piece → Printing Bool
  | node .ifStatement [_, _, .value .absent] _ => return true
  | node .ifStatement [_, _, alternate] _ => alternate.endsInOpenIf
  | node .whileStatement [_, body] _ => body.endsInOpenIf
  | node .forStatement [_, _, _, body] _ => body.endsInOpenIf
  | node .labeledStatement [_, body] _ => body.endsInOpenIf
  | node .. => return false
  | _ => throw .malformed

/-- A case or default of a switch. -/
def switchCase (p : Piece) : Printing (String × Bool) := do
  let head ← match ← p.kind with
    | .switchDefault => pure "default:"
    | _ => do pure ("case " ++ (← p.expressionOf "test" sequence) ++ ":")
  let parts ← (← p.itemsOf "consequent").mapM (·.statement)
  return (head ++ joined parts, (parts.getLast?.map (·.2)).getD false)

/-- A catch clause. -/
def catchClause (p : Piece) : Printing String := do
  let binding ← p.get "binding"
  let head ← if binding.isAbsent then pure "catch"
    else do pure ("catch" ++ inParens (← binding.textOf "name"))
  return head ++ (← (← p.get "body").block)

/-- The expression in a field, or nothing. -/
def optionalExpression (p : Piece) (field : String) : Printing String := do
  let e ← p.get field
  if e.isAbsent then return "" else e.expression sequence

end Piece

open Piece

/-- A word, and what follows it if anything does. -/
def wordWith (word : String) (rest : Tree) : String × Bool :=
  if rest.isAbsent then (word, true) else (word ++ " " ++ rest.plain, true)

/-- An expression as a statement. A string alone would be a directive, and some
beginnings would be read as another statement. -/
def expressionStatementText (p : Piece) : Printing (String × Bool) := do
  let e ← p.get "expression"
  let t ← e.expression sequence
  return (if e.isKind .literalStringExpression || beginsLikeStatement t then inParens t else t,
    true)

/-- An `if`. A consequent that would catch the `else` is put in braces. -/
def ifText (p : Piece) : Printing (String × Bool) := do
  let head := "if" ++ inParens (← p.expressionOf "test" sequence)
  let consequent ← p.get "consequent"
  let alternate ← p.get "alternate"
  if alternate.isAbsent then
    let (t, semicolon) ← consequent.statement
    return (head ++ t, semicolon)
  else
    let (t, semicolon) ← if ← consequent.endsInOpenIf
      then do pure (braced (← consequent.statement).1, false)
      else consequent.statement
    let (a, last) ← alternate.statement
    return (head ++ t ++ (if semicolon then ";" else "") ++ "else" ++ spaceBefore a ++ a, last)

/-- A `for` with whatever its head has. -/
def forText (p : Piece) : Printing (String × Bool) := do
  let init ← p.get "init"
  let init ← if init.isAbsent then pure ""
    else match ← init.kind with
      | .variableDeclaration => init.variableDeclaration
      | _ => init.expression sequence
  let test ← p.optionalExpression "test"
  let update ← p.optionalExpression "update"
  let (body, semicolon) ← p.statementOf "body"
  return ("for" ++ inParens (init ++ ";" ++ test ++ ";" ++ update) ++ body, semicolon)

/-- A switch over the given cases. -/
def switchText (p : Piece) (cases : Printing (List Piece)) : Printing (String × Bool) := do
  let head := "switch" ++ inParens (← p.expressionOf "discriminant" sequence)
  return (head ++ braced (joined (← (← cases).mapM switchCase)), false)

/-- A default export. -/
def exportDefaultText (p : Piece) : Printing (String × Bool) := do
  let body ← p.get "body"
  match ← body.kind with
  | .functionDeclaration | .classDeclaration =>
    return ("export default " ++ (← body.statement).1, false)
  | _ =>
    let t ← body.expression assignment
    return ("export default " ++ (if beginsLikeStatement t then inParens t else t), true)

/-- The text of a statement, and whether it needs a semicolon before another one. -/
def statementText (k : Kind) (p : Piece) : Printing (String × Bool) := do
  match k with
  | .blockStatement => return (← (← p.get "block").block, false)
  | .breakStatement => return wordWith "break" (← p.valueOf "label")
  | .classDeclaration => return (← p.classText, false)
  | .continueStatement => return wordWith "continue" (← p.valueOf "label")
  | .debuggerStatement => return ("debugger", true)
  | .doWhileStatement =>
    let (body, semicolon) ← p.statementOf "body"
    let test ← p.expressionOf "test" sequence
    return ("do" ++ spaceBefore body ++ body ++ (if semicolon then ";" else "") ++ "while"
      ++ inParens test, true)
  | .emptyStatement => return (";", false)
  | .expressionStatement => expressionStatementText p
  | .forStatement => forText p
  | .functionDeclaration => return (← p.function, false)
  | .ifStatement => ifText p
  | .labeledStatement =>
    let (body, semicolon) ← p.statementOf "body"
    return ((← p.textOf "label") ++ ":" ++ body, semicolon)
  | .returnStatement =>
    let e ← p.get "expression"
    if e.isAbsent then return wordWith "return" .absent
    else return wordWith "return" (← e.expressionValue sequence)
  | .switchStatement => switchText p (p.itemsOf "cases")
  | .switchStatementWithDefault =>
    let before ← p.itemsOf "pre_default_cases"
    let default ← p.get "default_case"
    let after ← p.itemsOf "post_default_cases"
    switchText p (.ok (before ++ default :: after))
  | .throwStatement => return ("throw " ++ (← p.expressionOf "expression" sequence), true)
  | .tryCatchStatement =>
    let body ← (← p.get "body").block
    return ("try" ++ body ++ (← (← p.get "catch_clause").catchClause), false)
  | .tryFinallyStatement =>
    let clause ← p.get "catch_clause"
    let clause ← if clause.isAbsent then pure "" else clause.catchClause
    let body ← (← p.get "body").block
    return ("try" ++ body ++ clause ++ "finally" ++ (← (← p.get "finalizer").block), false)
  | .variableDeclarationStatement =>
    return (← (← p.get "declaration").variableDeclaration, true)
  | .whileStatement =>
    let (body, semicolon) ← p.statementOf "body"
    return ("while" ++ inParens (← p.expressionOf "test" sequence) ++ body, semicolon)
  | .exportDeclaration =>
    let declaration ← p.get "declaration"
    match ← declaration.kind with
    | .variableDeclaration => return ("export " ++ (← declaration.variableDeclaration), true)
    | _ => return ("export " ++ (← declaration.statement).1, false)
  | .exportDefault => exportDefaultText p
  | _ => throw (.noPrinter (.str k.name))

end Whittle.Source
