import Whittle.Source.Spelling

/-!
# Functions, classes and blocks

The texts that statements and expressions share: bodies, parameters, functions,
methods, classes, property names and variable declarations.
-/

namespace Whittle.Source

namespace Piece

/-- Directives and statements one after another. -/
def body (directives statements : Piece) : Printing String := do
  let ds ← (← directives.items).mapM (·.valueOf "raw_value")
  let ss ← (← statements.items).mapM (·.statement)
  return joined (ds.map (fun raw => (directiveText raw, true)) ++ ss)

/-- The statements of a node in braces. -/
def block (p : Piece) : Printing String := do
  return braced (joined (← (← p.itemsOf "statements").mapM (·.statement)))

/-- The directives and statements of a node in braces. -/
def functionBody (p : Piece) : Printing String := do
  return braced (← body (← p.get "directives") (← p.get "statements"))

/-- A parameter, with its default if it has one. -/
def parameter (p : Piece) : Printing String := do
  match ← p.kind with
  | .bindingWithDefault =>
    let name ← p.nameOf "binding"
    return name ++ "=" ++ (← p.expressionOf "init" assignment)
  | _ => p.textOf "name"

/-- Parameters in parentheses. -/
def parameters (p : Piece) : Printing String := do
  let items ← (← p.itemsOf "items").mapM parameter
  let rest ← p.get "rest"
  let rest ← if rest.isAbsent then pure [] else do pure ["..." ++ (← rest.textOf "name")]
  return inParens (commaList (items ++ rest))

/-- The one parameter of a setter in parentheses. -/
def soleParameter (p : Piece) : Printing String := do
  match ← p.kind with
  | .bindingWithDefault => return inParens (← p.parameter)
  | _ => return inParens (← p.textOf "name")

/-- The name of a function or class with the space before it, unless it is anonymous. -/
def spacedName (space : String) (p : Piece) : Printing String := do
  let name ← p.get "name"
  if name.isAbsent then return ""
  else
    let text ← name.textOf "name"
    return if text == defaultExportName then "" else space ++ text

/-- A function from its first word to the end of its body. -/
def function (p : Piece) : Printing String := do
  let isAsync ← p.holdsAt "is_async"
  let isGenerator ← p.holdsAt "is_generator"
  let name ← p.spacedName (if isGenerator then "" else " ")
  let params ← (← p.get "params").parameters
  let body ← (← p.get "body").functionBody
  return (if isAsync then "async function" else "function")
    ++ (if isGenerator then "*" else "") ++ name ++ params ++ body

/-- The name of a property. -/
def propertyName (p : Piece) : Printing String := do
  match ← p.kind with
  | .computedPropertyName => return "[" ++ (← p.expressionOf "expression" assignment) ++ "]"
  | _ =>
    let value ← p.textOf "value"
    return if isBareName value then value else Text.escaped true value

/-- A method, getter or setter. -/
def method (p : Piece) : Printing String := do
  let name ← (← p.get "name").propertyName
  match ← p.kind with
  | .getter => return "get " ++ name ++ "()" ++ (← (← p.get "body").functionBody)
  | .setter =>
    let param ← (← p.get "param").soleParameter
    return "set " ++ name ++ param ++ (← (← p.get "body").functionBody)
  | _ =>
    let isAsync ← p.holdsAt "is_async"
    let isGenerator ← p.holdsAt "is_generator"
    let params ← (← p.get "params").parameters
    let body ← (← p.get "body").functionBody
    return (if isAsync then "async " else "") ++ (if isGenerator then "*" else "")
      ++ name ++ params ++ body

/-- An element of a class. -/
def classElement (p : Piece) : Printing String := do
  let isStatic ← p.holdsAt "is_static"
  return (if isStatic then "static " else "") ++ (← (← p.get "method").method)

/-- A class from its first word to the closing brace. -/
def classText (p : Piece) : Printing String := do
  let name ← p.spacedName " "
  let superClass ← p.get "super_class"
  let heritage ← if superClass.isAbsent then pure ""
    else do pure (" extends " ++ (← superClass.expression call))
  let elements ← (← p.itemsOf "elements").mapM classElement
  return "class" ++ name ++ heritage ++ braced (String.join elements)

/-- A declarator. -/
def declarator (p : Piece) : Printing String := do
  let name ← p.nameOf "binding"
  let init ← p.get "init"
  if init.isAbsent then return name
  else return name ++ "=" ++ (← init.expression assignment)

/-- A variable declaration without a semicolon. -/
def variableDeclaration (p : Piece) : Printing String := do
  let ds ← (← p.itemsOf "declarators").mapM declarator
  return (← p.textOf "kind") ++ " " ++ commaList ds

end Piece

end Whittle.Source
