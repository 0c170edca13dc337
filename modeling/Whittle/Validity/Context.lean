import Whittle.Path
import Whittle.Validity.Violation

/-!
# Contexts

What the surroundings of a node allow. A context is handed down from a node to its
fields: functions start afresh, loops, switches and labels add to it, classes and
directives turn strict mode on. Three of its flags are meant for the very next node
only and are dropped after it.

Reading a node's shape can fail on a tree that is not well-typed; such a failure has
no value.
-/

namespace Whittle

/-- What the surroundings of a node allow. -/
structure Context where
  inFunction : Bool := false
  isAsync : Bool := false
  isGenerator : Bool := false
  inIteration : Bool := false
  inSwitch : Bool := false
  /-- The labels around the node, outermost first, each with whether it labels a loop. -/
  labels : List (String × Bool) := []
  superProperty : Bool := false
  superCall : Bool := false
  strict : Bool := false
  /-- The node is an element of a class that extends another. -/
  derivedClass : Bool := false
  /-- The node is the constructor of such a class. -/
  derivedConstructor : Bool := false
  /-- The node is, or names, a declaration that is exported as the default. -/
  defaultName : Bool := false
deriving DecidableEq

/-! ## Shapes -/

namespace Kind

def isLoop : Kind → Bool
  | doWhileStatement | forStatement | whileStatement => true
  | _ => false

end Kind

namespace Tree

/-- The truth value that a field holds. -/
def flag? : Tree → Option Bool
  | .bool b => some b
  | _ => none

/-- Whether a directive turns strict mode on. -/
def isStrictDirective? : Tree → Option Bool
  | .node .directive [.str raw] => some (raw == "use strict")
  | _ => none

/-- Whether a script or function body opens with a directive for strict mode. Other
nodes have no directives. -/
def hasUseStrict? : Tree → Option Bool
  | .node .script [.list ds, _] => return (← ds.mapM isStrictDirective?).any id
  | .node .functionBody [.list ds, _] => return (← ds.mapM isStrictDirective?).any id
  | .node .script _ => none
  | .node .functionBody _ => none
  | .node _ _ => some false
  | _ => none

/-- Whether a statement is, under any number of labels, a loop. -/
def isLabelledLoop? : Tree → Option Bool
  | .node .labeledStatement [_, body] => body.isLabelledLoop?
  | .node .labeledStatement _ => none
  | .node k _ => some k.isLoop
  | _ => none

/-- The name of a method, getter or setter. -/
def methodName? : Tree → Option Tree
  | .node .method [_, _, name, _, _] => some name
  | .node .getter [name, _] => some name
  | .node .setter [name, _, _] => some name
  | _ => none

/-- Whether a property name is written out and is the given text. -/
def isStaticName? (s : String) : Tree → Option Bool
  | .node .staticPropertyName [.str v] => some (v == s)
  | .node .staticPropertyName _ => none
  | .node _ _ => some false
  | _ => none

/-- Whether a method has the name of a constructor. -/
def isConstructor? (method : Tree) : Option Bool := do
  (← method.methodName?).isStaticName? "constructor"

end Tree

namespace Context

/-- Whether the outermost label of that name labels a loop; nothing if there is none. -/
def label? (c : Context) (name : String) : Option Bool :=
  (c.labels.find? (·.1 == name)).map (·.2)

/-- The context without the flags for the next node only. -/
def inherited (c : Context) : Context :=
  { c with derivedClass := false, derivedConstructor := false, defaultName := false }

/-- The context in the parameters or body of a function. Only its body awaits and
yields. -/
def ofFunction (c : Context) (inBody isAsync isGenerator superProperty superCall : Bool)
    (body : Tree) : Option Context := do
  let directive ← body.hasUseStrict?
  return {
    inFunction := true
    isAsync := inBody && isAsync
    isGenerator := inBody && isGenerator
    superProperty, superCall
    strict := c.strict || directive }

/-- The context in the parameters or body of an arrow function, which keeps `super` as
it is around it. -/
def ofArrow (c : Context) (inBody isAsync : Bool) (body : Tree) : Option Context := do
  let directive ← body.hasUseStrict?
  return { c with
    inFunction := true
    isAsync := isAsync && inBody
    isGenerator := false
    inIteration := false
    inSwitch := false
    labels := []
    strict := c.strict || directive }

/-- The context of a class, whose parts are all strict code. -/
def ofClass (outer : Context) (isDeclaration : Bool) (superClass : Tree) (field : String) :
    Context :=
  let c := { outer.inherited with strict := true }
  if field == "elements" then { c with derivedClass := !superClass.isAbsent }
  else if field == "name" && isDeclaration then { c with defaultName := outer.defaultName }
  else c

/-- The context of the value in a field of a node; `outer` is the node's own. -/
def ofField (outer : Context) (k : Kind) (fields : List Tree) (field : String) :
    Option Context :=
  let c := outer.inherited
  let inBody := field == "body"
  match k, fields with
  | .esModule, _ => some { c with strict := true }
  | .script, fields => do
    return { c with strict := ← (Tree.node .script fields).hasUseStrict? }
  | .functionDeclaration, [isAsync, isGenerator, _, _, body] =>
    if field == "params" || inBody then do
      c.ofFunction inBody (← isAsync.flag?) (← isGenerator.flag?) false false body
    else if field == "name" then some { c with defaultName := outer.defaultName }
    else some c
  | .functionExpression, [isAsync, isGenerator, _, _, body] =>
    if field == "params" || inBody then do
      c.ofFunction inBody (← isAsync.flag?) (← isGenerator.flag?) false false body
    else some c
  | .method, [isAsync, isGenerator, _, _, body] =>
    if field == "params" || inBody then do
      c.ofFunction inBody (← isAsync.flag?) (← isGenerator.flag?) true
        outer.derivedConstructor body
    else some c
  | .getter, [_, body] =>
    if inBody then c.ofFunction inBody false false true outer.derivedConstructor body
    else some c
  | .setter, [_, _, body] =>
    if field == "param" || inBody then
      c.ofFunction inBody false false true outer.derivedConstructor body
    else some c
  | .arrowExpression, [isAsync, _, body] =>
    if field == "params" || inBody then do c.ofArrow inBody (← isAsync.flag?) body
    else some c
  | .classDeclaration, [_, superClass, _] => some (outer.ofClass true superClass field)
  | .classExpression, [_, superClass, _] => some (outer.ofClass false superClass field)
  | .classElement, [isStatic, method] => do
    let isStatic ← isStatic.flag?
    let isConstructor ← method.isConstructor?
    return { c with
      derivedConstructor := outer.derivedClass && !isStatic && isConstructor }
  | .exportDefault, _ => some { c with defaultName := true }
  | .doWhileStatement, _ | .forStatement, _ | .whileStatement, _ =>
    some { c with inIteration := c.inIteration || inBody }
  | .switchStatement, _ | .switchStatementWithDefault, _ =>
    some { c with inSwitch := c.inSwitch || field != "discriminant" }
  | .labeledStatement, [.str label, body] => do
    return { c with labels := c.labels ++ [(label, ← body.isLabelledLoop?)] }
  | .functionDeclaration, _ | .functionExpression, _ | .method, _ | .getter, _
  | .setter, _ | .arrowExpression, _ | .classDeclaration, _ | .classExpression, _
  | .classElement, _ | .labeledStatement, _ => none
  | _, _ => some c

end Context

end Whittle
