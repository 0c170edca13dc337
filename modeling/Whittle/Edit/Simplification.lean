import Whittle.Node
import Whittle.Series
import Whittle.Tree.Sum
import Whittle.Validity.Violation

/-!
# Simplifications

For some kinds of nodes there are simpler nodes that may stand in the same place:
texts become empty, computed properties become plain ones, a switch loses its default
case, functions of all sorts become function expressions, a class becomes an object
and an object one of its methods.
-/

namespace Whittle

/-- Why an edit cannot be made. -/
inductive EditFault where
  /-- A node that the edit needs is refused. -/
  | node (e : NodeError)
  /-- The edited position is not there. -/
  | path (e : PathError)
  /-- A field does not hold what the edit works on. -/
  | malformed

/-- A value, or the reason why there is none. -/
abbrev Editing := Except EditFault

/-- A checked node, for use in an edit. -/
def newNode (k : Kind) (values : List Tree) : Editing Tree :=
  (Node.make k values).mapError .node

namespace Simplification

/-- The pattern that every regular expression can be reduced to. -/
def simplestPattern : String := "a"

/-- The property name that stands for any other. -/
def placeholderProperty : String := "_"

/-- Parameters, or none if they are absent. -/
def parametersOr (params : Tree) : Editing Tree :=
  if params.isAbsent then newNode .formalParameters [.list [], .absent] else .ok params

/-- A function expression. -/
def functionExpression (isAsync isGenerator name params body : Tree) : Editing Tree := do
  newNode .functionExpression [isAsync, isGenerator, name, ← parametersOr params, body]

/-- The name of a declaration as the name of an expression: the name of a default
export is no name. -/
def expressionName (name : Tree) : Editing Tree := do
  match name.child (.field "name") with
  | .ok text => return if text.isText defaultExportName then .absent else name
  | .error _ => throw .malformed

/-- The body of an arrow function as the body of a function. -/
def arrowBody (body : Tree) : Editing Tree := do
  match body with
  | .node .functionBody fields => return .node .functionBody fields
  | .node k fields =>
    let result ← newNode .returnStatement [.node k fields]
    newNode .functionBody [.list [], .list [result]]
  | _ => throw .malformed

/-- The method in an element of a class. -/
def elementMethod (element : Tree) : Editing Tree :=
  match element.child (.field "method") with
  | .ok m => .ok m
  | .error _ => .error .malformed

/-- The function that a property of an object is, if it is a method or an accessor. -/
def propertyFunction : Tree → Editing (Option Tree)
  | .node .method [isAsync, isGenerator, _, params, body] =>
    return some (← functionExpression isAsync isGenerator .absent params body)
  | .node .getter [_, body] =>
    return some (← functionExpression (.bool false) (.bool false) .absent .absent body)
  | .node .setter [_, param, body] => do
    let params ← newNode .formalParameters [.list [param], .absent]
    return some (← functionExpression (.bool false) (.bool false) .absent params body)
  | .node _ _ => return none
  | _ => throw .malformed

/-- The elements of a template without the pair at an odd index and just before it, for
every such index; `before` holds the elements that are kept in any case, last first. -/
def withoutPairs (before : List Tree) : List Tree → List (List Tree)
  | a :: b :: rest => (before.reverse ++ rest) :: withoutPairs (b :: a :: before) rest
  | _ => []

/-- The one value that an edit gives. -/
def one (e : Editing Tree) : Series EditFault Tree := .ofExcept e

/-- The elements of a template without a pair, for every pair that can be left out; of a
text that stands where the elements should, without its first two characters. -/
def elementsWithoutPairs : Tree → Series EditFault Tree
  | .list elements => .ofList ((withoutPairs [] elements).map .list)
  | .str s => if s.length < 2 then .empty else one (.ok (.str (String.ofList (s.toList.drop 2))))
  | _ => .broken .malformed

/-- The items of a list. An empty text has none, like an empty list. -/
def itemsOf : Tree → Editing (List Tree)
  | .list items => .ok items
  | .str "" => .ok []
  | _ => .error .malformed

/-- A node whose text may be made simpler, unless it is as simple as it can be. -/
def simplified (text : Tree) (simplest : String) (e : Editing Tree) : Series EditFault Tree :=
  if text.isText simplest then .empty else one e

end Simplification

open Simplification in
/-- The simpler nodes that may stand in the place of a node of kind `k`. -/
def simplifications (k : Kind) (fields : List Tree) : Series EditFault Tree :=
  match k, fields with
  | .directive, [raw] => simplified raw "" (newNode .directive [.str ""])
  | .templateElement, [raw] => simplified raw "" (newNode .templateElement [.str ""])
  | .literalStringExpression, [value] =>
    simplified value "" (newNode .literalStringExpression [.str ""])
  | .staticPropertyName, [value] => simplified value "" (newNode .staticPropertyName [.str ""])
  | .literalRegExpExpression, pattern :: flags =>
    simplified pattern simplestPattern
      (.ok (.node .literalRegExpExpression (.str simplestPattern :: flags)))
  | .templateExpression, [tag, elements] =>
    (elementsWithoutPairs elements).mapExcept fun es => newNode .templateExpression [tag, es]
  | .computedMemberExpression, [object, _] =>
    one (newNode .staticMemberExpression [object, .str placeholderProperty])
  | .computedMemberAssignmentTarget, [object, _] =>
    one (newNode .staticMemberAssignmentTarget [object, .str placeholderProperty])
  | .staticMemberExpression, [object, property] =>
    simplified property placeholderProperty
      (newNode .staticMemberExpression [object, .str placeholderProperty])
  | .staticMemberAssignmentTarget, [object, property] =>
    simplified property placeholderProperty
      (newNode .staticMemberAssignmentTarget [object, .str placeholderProperty])
  | .switchStatementWithDefault, [discriminant, before, _, after] => one do
    match before.sum? after with
    | some cases => newNode .switchStatement [discriminant, cases]
    | none => throw .malformed
  | .arrowExpression, [isAsync, params, body] => one do
    functionExpression isAsync (.bool false) .absent params (← arrowBody body)
  | .functionDeclaration, [isAsync, isGenerator, name, params, body] => one do
    let name ← expressionName name
    newNode .expressionStatement [← functionExpression isAsync isGenerator name params body]
  | .classDeclaration, [name, superClass, elements] => one do
    let name ← expressionName name
    newNode .expressionStatement [← newNode .classExpression [name, superClass, elements]]
  | .classExpression, [_, _, elements] => one do
    newNode .objectExpression [.list (← (← itemsOf elements).mapM elementMethod)]
  | .objectExpression, [properties] =>
    match itemsOf properties with
    | .ok properties =>
      let functions := Series.mapList propertyFunction properties
      ⟨functions.items.filterMap id, functions.fault⟩
    | .error f => .broken f
  | _, _ => .empty

end Whittle
