import Whittle.Path

/-!
# Early errors

A violation is a broken rule; an early error is a violation together with the path
of the node, or of the field, that breaks it.
-/

namespace Whittle

/-- A broken rule. -/
inductive Violation where
  -- typing
  | notANode (value : Tree)
  | notAdmitted (kind : Kind) (field : String) (value : Tree)
  | misshapen (kind : Kind)
  -- functions and jumps
  | returnOutside
  | awaitOutside
  | yieldOutside
  | breakOutside
  | continueOutside
  | breakToUndeclared (label : String)
  | continueToUndeclared (label : String)
  | continueToNonLoop (label : String)
  | labelRedeclared (label : String)
  -- super
  | superCallOutside
  | superPropertyOutside
  -- declarations
  | duplicateLexical (name : String)
  | lexicalAndVar (name : String)
  | parameterRedeclared (name : String)
  | catchRedeclared (name : String)
  | noDeclarators
  | constWithoutInit
  | declarationAsStatement (kind : Kind)
  | strictDirectiveAfterParameters
  | duplicateParameter (name : String)
  -- templates
  | templateEnds
  | templateAlternation
  -- classes
  | staticPrototype
  | secondConstructor
  | accessorConstructor
  | specialConstructor
  -- modules
  | secondDefaultExport
  | misplacedDefaultName
  -- tokens
  | invalidIdentifier (name : String)
  | reservedWord (name : String)
  | numberNotFinite
  | numberNegative
  | emptyPattern
  -- strict mode
  | restrictedName (name : String)
  | strictDelete
deriving DecidableEq

/-- The name of a default export that has no name of its own. -/
def defaultExportName : String := "*default*"

/-- The rule as a sentence. -/
def Violation.message : Violation → String
  | notANode v => "expected a node, got " ++ v.written
  | notAdmitted k f v => k.name ++ "." ++ f ++ " does not admit " ++ v.written
  | misshapen k => k.name ++ " does not have its own fields"
  | returnOutside => "return outside of a function"
  | awaitOutside => "await outside of an async function"
  | yieldOutside => "yield outside of a generator"
  | breakOutside => "break outside of a loop or switch"
  | continueOutside => "continue outside of a loop"
  | breakToUndeclared l => "break to undeclared label " ++ Text.quoted l
  | continueToUndeclared l => "continue to undeclared label " ++ Text.quoted l
  | continueToNonLoop l =>
    "continue to label " ++ Text.quoted l ++ ", which does not label a loop"
  | labelRedeclared l => "label " ++ Text.quoted l ++ " is already declared"
  | superCallOutside => "super() outside of a derived class constructor"
  | superPropertyOutside => "super property access outside of a method"
  | duplicateLexical n => "duplicate lexical declaration of " ++ Text.quoted n
  | lexicalAndVar n => Text.quoted n ++ " is declared both lexically and with var"
  | parameterRedeclared n =>
    "parameter " ++ Text.quoted n ++ " is redeclared in the function body"
  | catchRedeclared n => "catch parameter " ++ Text.quoted n ++ " is redeclared in its block"
  | noDeclarators => "a variable declaration needs at least one declarator"
  | constWithoutInit => "const declarations must be initialised"
  | declarationAsStatement k => k.name ++ " is not allowed in single-statement position"
  | strictDirectiveAfterParameters =>
    "\"use strict\" is not allowed in a function with non-simple parameters"
  | duplicateParameter n => "duplicate parameter name " ++ Text.quoted n
  | templateEnds => "a template must start and end with a TemplateElement"
  | templateAlternation => "template text and expressions must alternate"
  | staticPrototype => "a class may not have a static method named prototype"
  | secondConstructor => "a class may have only one constructor"
  | accessorConstructor => "a class constructor may not be a getter or setter"
  | specialConstructor => "a class constructor may not be async or a generator"
  | secondDefaultExport => "a module may have only one default export"
  | misplacedDefaultName =>
    defaultExportName ++ " may only name a default-exported declaration"
  | invalidIdentifier n => Text.quoted n ++ " is not a valid identifier"
  | reservedWord n => Text.quoted n ++ " is a reserved word"
  | numberNotFinite => "numeric literals must be finite"
  | numberNegative => "numeric literals must not be negative"
  | emptyPattern => "a regular expression pattern may not be empty"
  | restrictedName n => Text.quoted n ++ " may not be bound in strict mode"
  | strictDelete => "delete of an unqualified identifier in strict mode"

/-- A broken rule and where it is broken. -/
structure EarlyError where
  path : Path
  violation : Violation
deriving DecidableEq

namespace EarlyError

def message (e : EarlyError) : String := e.violation.message

/-- The error in one line, its path first. -/
def text (e : EarlyError) : String := e.path.dotted ++ ": " ++ e.message

/-- The same error seen from one step further up. -/
def under (s : Step) (e : EarlyError) : EarlyError := { e with path := s :: e.path }

end EarlyError

/-- An error at the node itself. -/
def Violation.here (v : Violation) : EarlyError := ⟨[], v⟩

/-- An error at a field of the node. -/
def Violation.atField (field : String) (v : Violation) : EarlyError := ⟨[.field field], v⟩

/-- An error at an item of a list field of the node. -/
def Violation.atItem (field : String) (i : Nat) (v : Violation) : EarlyError :=
  ⟨[.field field, .index i], v⟩

end Whittle
