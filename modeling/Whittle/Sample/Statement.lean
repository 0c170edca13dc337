import Whittle.Sample.Function

/-!
# Random statements

Generators of statements. A jump is placed only where there is something to jump to.
-/

namespace Whittle.Sample

variable {σ : Type} (rs : RandomSource σ) (m : Makers σ) (levels : Nat) (c : Scene)

def expressionStatement : Gen σ Tree := do
  node .expressionStatement [← part m levels c]

/-! ## Simple statements -/

def throwStatement : Gen σ Tree := do
  node .throwStatement [← part m levels c]

def returnStatement : Gen σ Tree := do
  node .returnStatement [← perhaps rs 60 (part m levels c)]

/-- One of the labels, in half of the cases or if a jump without a label has no target. -/
def jumpLabel (labels : List (String × Bool)) (needed : Bool) : Gen σ Tree := do
  match labels with
  | [] => return .absent
  | l :: ls =>
    if (← chance rs 50) || needed then return .str (← choose rs l ls).1
    else return .absent

def breakStatement : Gen σ Tree := do
  node .breakStatement [← jumpLabel rs c.labels (!(c.inLoop || c.inSwitch))]

def continueStatement : Gen σ Tree := do
  node .continueStatement [← jumpLabel rs (c.labels.filter (·.2)) (!c.inLoop)]

/-- A statement without statements in it. -/
def simpleStatement : Gen σ Tree :=
  chooseGen rs (expressionStatement m levels c) <|
    [node .emptyStatement [], throwStatement m levels c, node .debuggerStatement []]
    ++ (if c.inFunction then [returnStatement rs m levels c] else [])
    ++ (if c.inLoop || c.inSwitch || !c.labels.isEmpty then [breakStatement rs c] else [])
    ++ (if c.inLoop || c.labels.any (·.2) then [continueStatement rs c] else [])

/-! ## Compound statements -/

/-- A statement one level down that is no declaration. -/
def inner : Gen σ Tree := m.statement (levels - 1) c false

def block : Gen σ Tree := do
  node .block [← statementList rs m levels c]

def blockStatement : Gen σ Tree := do
  node .blockStatement [← block rs m levels c]

def ifStatement : Gen σ Tree := do
  let alternate ← perhaps rs 50 (inner m levels c)
  let test ← part m levels c
  node .ifStatement [test, ← inner m levels c, alternate]

/-- A declarator; a constant always has an initial value. -/
def declarator (isConst : Bool) : Gen σ Tree := do
  let init ← if isConst then part m levels c else perhaps rs 60 (part m levels c)
  node .variableDeclarator [← binding, init]

/-- A variable declaration with up to three names. -/
def variableDeclaration (lexical : Bool) : Gen σ Tree := do
  let word ← if lexical then choose rs "let" ["const"] else pure "var"
  let first ← declarator rs m levels c (word == "const")
  let others ← several rs 2 (declarator rs m levels c (word == "const"))
  node .variableDeclaration [.str word, .list (first :: others)]

def variableStatement (lexical : Bool) : Gen σ Tree := do
  node .variableDeclarationStatement [← variableDeclaration rs m levels c lexical]

/-- What stands first in the head of a `for`. -/
def forInit : Gen σ Tree := do
  if ← chance rs 50 then
    variableDeclaration rs m (levels - 1) c (← chance rs 50)
  else perhaps rs 50 (assignment rs m (levels - 1) c)

/-- A loop; its body is made in the scene `bodyScene`. -/
def loopStatement (bodyScene : Scene) : Gen σ Tree := do
  let body ← inner m levels { bodyScene with inLoop := true }
  let r ← roll rs
  if r.less (hundredths 40) then node .whileStatement [← part m levels c, body]
  else if r.less (hundredths 60) then node .doWhileStatement [body, ← part m levels c]
  else
    let init ← forInit rs m levels c
    let test ← perhaps rs 70 (part m levels c)
    let update ← perhaps rs 50 (part m levels c)
    node .forStatement [init, test, update, body]

/-- A fresh label before a loop or a block. -/
def labeledStatement : Gen σ Tree := do
  let label ← fresh "L"
  let isLoop ← chance rs 60
  let bodyScene := { c with labels := c.labels ++ [(label, isLoop)] }
  let body ← if isLoop then loopStatement rs m (levels - 1) c bodyScene
    else blockStatement rs m (levels - 1) bodyScene
  node .labeledStatement [.str label, body]

def switchCase : Gen σ Tree := do
  let test ← part m levels c
  node .switchCase [test, ← statementList rs m levels { c with inSwitch := true }]

def switchStatement : Gen σ Tree := do
  let discriminant ← part m levels c
  if ← chance rs 50 then
    node .switchStatement [discriminant, .list (← several rs 3 (switchCase rs m levels c))]
  else
    let before ← several rs 2 (switchCase rs m levels c)
    let default ← node .switchDefault [← statementList rs m levels { c with inSwitch := true }]
    let after ← several rs 2 (switchCase rs m levels c)
    node .switchStatementWithDefault [discriminant, .list before, default, .list after]

def catchClause : Gen σ Tree := do
  let b ← perhaps rs 80 binding
  node .catchClause [b, ← block rs m levels c]

def tryStatement : Gen σ Tree := do
  let body ← block rs m levels c
  if ← chance rs 70 then
    let clause ← catchClause rs m levels c
    if ← chance rs 50 then node .tryCatchStatement [body, clause]
    else node .tryFinallyStatement [body, clause, ← block rs m levels c]
  else node .tryFinallyStatement [body, .absent, ← block rs m levels c]

/-- A statement of any kind that the scene allows. -/
def compoundStatement (declarations : Bool) : Gen σ Tree :=
  chooseGen rs (simpleStatement rs m levels c) <|
    [simpleStatement rs m levels c, expressionStatement m levels c,
      blockStatement rs m levels c, ifStatement rs m levels c, loopStatement rs m levels c c,
      labeledStatement rs m levels c, switchStatement rs m levels c,
      tryStatement rs m levels c, variableStatement rs m levels c false]
    ++ if declarations then
        [variableStatement rs m levels c true, functionDeclaration rs m levels c none,
          classDeclaration rs m levels c none]
      else []

end Whittle.Sample
