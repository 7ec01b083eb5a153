import CZero.Lowering.Stmt

/-!
# Lowering programs

The initial values of globals are computed by the function that the program starts in, in the order
of their declarations. At its end it calls `main`.
-/

namespace CZero

/-- The name of the function that a program has to declare. -/
def mainName : String := "main"

/-- What lowering makes of a program. -/
structure Analysis where
  table : Table
  /-- The function named `main`. -/
  main : Option Nat
  /-- The end of the source. -/
  finish : Position
deriving DecidableEq

namespace Lower

/-- The types of a function's parameters. -/
def paramTypes : List Param → Lower (List Ty)
  | [] => return []
  | p :: ps => do
    let ty ← valueType p.name p.type
    return ty :: (← paramTypes ps)

/-- Declares the parameters from the `index`-th on. They have values from the start. -/
def declareParams (layer index : Nat) : List (Param × Ty) → Lower Unit
  | [] => return ()
  | (p, ty) :: ps => do
    let s := Symbol.ofVariable p.name.name ty layer p.isConst (.arg index)
    declare p.name { s with isInit := true }
    declareParams layer (index + 1) ps

/-- Lowers a function. Its name counts from its body on, so that it can call itself. -/
def fnItem (f : FnItem) : Lower Unit := do
  let types ← paramTypes f.params
  let ret ← match f.type with
    | .ok type => resultType type
    | .error d => throw d
  let index := (← get).table.functionCount
  let params := (f.params.map (·.name.name)).zip types
  declare f.name (.ofFunction f.name.name (.declared index ret params))
  modify fun c => { c with
    table := c.table.openScope
    main := if f.name.name = mainName then some index else c.main }
  let layer := (← get).table.layer
  declareParams layer 0 (f.params.zip types)
  modify fun c => { c with current := index }
  block f.body
  if ret = .void then emit .ret
  modify fun c => { c with
    table := (c.table.closeScope layer).2
    current := entryIndex }

/-- Lowers the parts of a program. -/
def items : List Item → Lower Unit
  | [] => return ()
  | .fn f :: rest => do
    fnItem f
    items rest
  | .decl d :: rest => do
    decl d
    items rest

/-- Makes the function that a program starts in call `main`, if there is one. -/
def callMain : Lower Unit := do
  if let some main := (← get).main then
    let info ← update .nowhere fun t => do return (← t.function main, t)
    emitWith .stackalloc (Int64.ofNat info.returnSlots)
    emitWith .call (Int64.ofNat (main - entryIndex))

/-- Lowers a program. The result is the end of its source. -/
def program (p : Program) : Lower Position := do
  items p.items
  match p.finish with
  | .ok finish => do
    callMain
    return finish
  | .error d => throw d

end Lower

/-- The context before a program. -/
def Context.initial : Context :=
  ⟨.initial, entryIndex, none⟩

/-- Checks a program and generates its code. -/
def Program.analyse (p : Program) : Except Diagnostic Analysis := do
  let (finish, context) ← (Lower.program p).run .initial
  return ⟨context.table, context.main, finish⟩

end CZero
