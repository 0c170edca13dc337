import Whittle.Sample.Statement

/-!
# Random programs

A random program is built with the context in view: a construct is placed only where it is
legal, and no name is bound twice, so the program is valid. The number of levels bounds how
deep it is nested.
-/

namespace Whittle.Sample

variable {σ : Type} (rs : RandomSource σ)

/-- The makers for at most so many levels. Without levels left, expressions have no parts
and statements are simple; otherwise three in ten expressions have no parts. -/
def makers : Nat → Makers σ
  | 0 =>
    let leaves : Makers σ := ⟨fun _ _ => leaf rs, fun _ _ _ => leaf rs⟩
    ⟨leaves.expression, fun _ c _ => simpleStatement rs leaves 0 c⟩
  | n + 1 =>
    let m := makers n
    { expression := fun levels c =>
        if levels ≤ n then m.expression levels c
        else do if ← chance rs 30 then leaf rs else compound rs m (n + 1) c
      statement := fun levels c declarations =>
        if levels ≤ n then m.statement levels c declarations
        else compoundStatement rs m (n + 1) c declarations }

variable (m : Makers σ) (levels : Nat)

/-- A script of one to four statements, sometimes strict. -/
def script : Gen σ Tree := do
  let strict ← chance rs 20
  let directives ← if strict then do pure [← node .directive [.str "use strict"]] else pure []
  let n ← upTo rs 3
  let statements ← times (m.statement levels { strict } true) (n + 1)
  node .script [.list directives, .list statements]

/-- What an export declares. -/
def exportDeclaration (c : Scene) : Gen σ Tree := do
  let r ← roll rs
  if r.less (hundredths 40) then functionDeclaration rs m (levels - 1) c none
  else if r.less (hundredths 60) then classDeclaration rs m (levels - 1) c none
  else variableDeclaration rs m (levels - 1) c true

/-- What a default export consists of. Declarations are sometimes anonymous. -/
def exportDefaultBody (c : Scene) : Gen σ Tree := do
  let r ← roll rs
  let name ← if ← chance rs 50
    then do pure (some (← node .bindingIdentifier [.str defaultExportName]))
    else pure none
  if r.less (hundredths 40) then functionDeclaration rs m (levels - 1) c name
  else if r.less (hundredths 60) then classDeclaration rs m (levels - 1) c name
  else m.expression (levels - 1) c

/-- So many items of a module, with at most one default export. -/
def moduleItems (hasDefault : Bool) : Nat → Gen σ (List Tree)
  | 0 => return []
  | n + 1 => do
    let c : Scene := { strict := true }
    let r ← roll rs
    if r.less (hundredths 15) then
      let item ← node .exportDeclaration [← exportDeclaration rs m levels c]
      return item :: (← moduleItems hasDefault n)
    else if r.less (hundredths 25) && !hasDefault then
      let item ← node .exportDefault [← exportDefaultBody rs m levels c]
      return item :: (← moduleItems true n)
    else
      let item ← m.statement levels c true
      return item :: (← moduleItems hasDefault n)

/-- A module of one to four items. -/
def moduleProgram : Gen σ Tree := do
  let n ← upTo rs 3
  let items ← moduleItems rs m levels false (n + 1)
  node .esModule [.list [], .list items]

/-- The levels of nesting that a program has if nothing else is asked for. -/
def defaultDepth : Int := 4

/-- A random program, a module or a script, and the state of the source after it. -/
def program (isModule : Bool) (maxDepth : Int) (s : σ) : Except NodeError Tree × σ :=
  let levels := maxDepth.toNat
  let m := makers rs levels
  let g := if isModule then moduleProgram rs m levels else script rs m levels
  let (result, stock) := g ⟨s, 0⟩
  (result, stock.source)

end Whittle.Sample
