import Whittle.Sample.Expression

/-!
# Random functions and classes

Generators of everything that has a function body: functions, arrows, methods and classes.
-/

namespace Whittle.Sample

def otherMethods : List String := ["n", "run", "size", "toString"]

variable {σ : Type} (rs : RandomSource σ) (m : Makers σ) (levels : Nat) (c : Scene)

/-- Up to three statements one level down, declarations among them. -/
def statementList : Gen σ Tree := do
  return .list (← several rs 3 (m.statement (levels - 1) c true))

/-- A parameter, sometimes with a default if levels are left. -/
def parameter : Gen σ Tree := do
  if levels == 0 then binding
  else if ← chance rs 20 then
    let b ← binding
    node .bindingWithDefault [b, ← part m levels c]
  else binding

/-- Up to two parameters and sometimes a rest parameter. -/
def parameters : Gen σ Tree := do
  let rest ← perhaps rs 15 binding
  node .formalParameters [.list (← several rs 2 (parameter rs m levels c)), rest]

def functionBody : Gen σ Tree := do
  node .functionBody [.list [], ← statementList rs m levels c]

/-- The scene in the parameters of a function. -/
def Scene.ofFunction (c : Scene) (superProperty superCall : Bool) : Scene :=
  { inFunction := true, superProperty, superCall, strict := c.strict }

/-- The parameters and the body of a function. -/
def functionParts (isAsync isGenerator superProperty superCall : Bool) :
    Gen σ (Tree × Tree) := do
  let inner := c.ofFunction superProperty superCall
  let params ← parameters rs m (levels - 1) inner
  let body ← functionBody rs m levels { inner with isAsync, isGenerator }
  return (params, body)

/-- A function declaration with the given name, or with a fresh one. -/
def functionDeclaration (name : Option Tree) : Gen σ Tree := do
  let isAsync ← chance rs 30
  let isGenerator ← chance rs 20
  let (params, body) ← functionParts rs m levels c isAsync isGenerator false false
  let name ← match name with
    | none => binding
    | some n => pure n
  node .functionDeclaration [.bool isAsync, .bool isGenerator, name, params, body]

def functionExpression : Gen σ Tree := do
  let isAsync ← chance rs 30
  let isGenerator ← chance rs 20
  let (params, body) ← functionParts rs m levels c isAsync isGenerator false false
  let name ← perhaps rs 30 binding
  node .functionExpression [.bool isAsync, .bool isGenerator, name, params, body]

/-- An arrow function. It keeps `super` and nothing else of the scene around it. -/
def arrow : Gen σ Tree := do
  let isAsync ← chance rs 30
  let inner := { c with
    inFunction := true, isAsync := false, isGenerator := false, inLoop := false,
    inSwitch := false, labels := [] }
  let params ← parameters rs m (levels - 1) inner
  let inner := { inner with isAsync }
  if ← chance rs 50 then
    node .arrowExpression [.bool isAsync, params, ← functionBody rs m levels inner]
  else node .arrowExpression [.bool isAsync, params, ← part m levels inner]

/-- The name of a property, one of the given texts or sometimes computed. -/
def propertyName (first : String) (others : List String) : Gen σ Tree := do
  if levels == 0 then node .staticPropertyName [← chooseText rs first others]
  else if ← chance rs 20 then node .computedPropertyName [← part m levels c]
  else node .staticPropertyName [← chooseText rs first others]

/-- A method that is neither a getter nor a setter. -/
def plainMethod (name : Tree) (isAsync isGenerator superCall : Bool) : Gen σ Tree := do
  let (params, body) ← functionParts rs m levels c isAsync isGenerator true superCall
  node .method [.bool isAsync, .bool isGenerator, name, params, body]

/-- A method, getter or setter. -/
def method : Gen σ Tree := do
  let name ← propertyName rs m levels c "m" otherMethods
  let r ← roll rs
  if r.less (hundredths 60) then
    let isAsync ← chance rs 30
    let isGenerator ← chance rs 20
    plainMethod rs m levels c name isAsync isGenerator false
  else
    let inner := c.ofFunction true false
    if r.less (hundredths 80) then
      node .getter [name, ← functionBody rs m levels inner]
    else
      let param ← binding
      node .setter [name, param, ← functionBody rs m levels inner]

def classElement : Gen σ Tree := do
  let isStatic ← flag rs 30
  node .classElement [isStatic, ← method rs m (levels - 1) c]

/-- A constructor, somewhere among the elements of a class. -/
def withConstructor (derived : Bool) (elements : List Tree) : Gen σ (List Tree) := do
  let name ← node .staticPropertyName [.str "constructor"]
  let constructor ← plainMethod rs m (levels - 1) c name false false derived
  let i ← upTo rs elements.length
  let element ← node .classElement [.bool false, constructor]
  return elements.take i ++ element :: elements.drop i

/-- The heritage and the elements of a class. -/
def classParts : Gen σ (Tree × Tree) := do
  let c := { c with strict := true }
  let superClass ← perhaps rs 30 (part m levels c)
  let elements ← several rs 3 (classElement rs m levels c)
  if ← chance rs 30 then
    return (superClass, .list (← withConstructor rs m levels c (!superClass.isAbsent) elements))
  else return (superClass, .list elements)

/-- A class declaration with the given name, or with a fresh one. -/
def classDeclaration (name : Option Tree) : Gen σ Tree := do
  let name ← match name with
    | none => binding
    | some n => pure n
  let (superClass, elements) ← classParts rs m levels c
  node .classDeclaration [name, superClass, elements]

def classExpression : Gen σ Tree := do
  let name ← perhaps rs 30 binding
  let (superClass, elements) ← classParts rs m levels c
  node .classExpression [name, superClass, elements]

/-- A property of an object. -/
def objectProperty : Gen σ Tree := do
  let r ← roll rs
  if r.less (hundredths 50) then
    let name ← propertyName rs m (levels - 1) c "p" otherProperties
    node .dataProperty [name, ← part m levels c]
  else if r.less (hundredths 70) then
    let name ← node .identifierExpression [← reference rs]
    node .shorthandProperty [name]
  else method rs m (levels - 1) c

def object : Gen σ Tree := do
  node .objectExpression [.list (← several rs 3 (objectProperty rs m levels c))]

/-- An expression with parts, of a kind that the scene allows. -/
def compound : Gen σ Tree :=
  chooseGen rs (binary rs m levels c) <|
    [binary rs m levels c, callExpression rs m levels c, staticMember rs m levels c,
      computedMember m levels c, assignment rs m levels c, compoundAssignment rs m levels c,
      unary rs m levels c, update rs m levels c, conditional m levels c, array rs m levels c,
      object rs m levels c, template rs m levels c, newExpression rs m levels c,
      arrow rs m levels c, functionExpression rs m levels c, classExpression rs m levels c]
    ++ (if c.isAsync then [awaitExpression m levels c] else [])
    ++ (if c.isGenerator then [yieldExpression rs m levels c] else [])
    ++ (if c.superProperty then [superMember rs] else [])
    ++ (if c.superCall then [superCall rs m levels c] else [])

end Whittle.Sample
