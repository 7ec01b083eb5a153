import CZero.Lowering.Expr

/-!
# Lowering statements

Jumps forward are appended before their target is known, and patched when it is.

    if c A           c  [br end]  A  end: [br 0]
    if c A else B    c  [br else]  A  [br end]  else: B  end: [br 0]
    while c A        [br 0]  again: c  [br end]  A  [br again]  end:

Here `end` is the place behind the whole statement, and the branch at the end of a condition skips the
jump behind it. Blocks open no scope: all variables of a function are declared side by side.
-/

namespace CZero.Lower

/-- Lowers a declaration. A local variable has its slot from the start and a global one when its
declaration is complete; the name of either counts only from then on. -/
def decl (d : Decl) : Lower Unit := do
  let ty ← valueType d.name d.type
  let layer := (← get).table.layer
  let reserved ← if layer = 0 then pure none else some <$> edit (·.addLocal · d.name.name)
  let site ← match d.init with
    | none => pure none
    | some value => do
      let site ← match reserved with
        | some index => do
          emitWith .loca (Int64.ofNat index)
          pure none
        | none => some <$> placeholder .globa
      storable d.name (← expr value)
      emit .store64
      pure site
  if let some fault := d.cutOff then throw fault
  let global := (← get).table.globalCount
  let slot := match reserved with
    | some index => Slot.loc index
    | none => Slot.glob global
  let s := Symbol.ofVariable d.name.name ty layer d.isConst slot
  declare d.name { s with isInit := d.init.isSome }
  if let some site := site then patch site (Int64.ofNat global)

/-- Lowers a `return`. The result is stored in the first slot of the function. -/
def ret (keyword : Position) (value : Option Expr) : Lower Unit := do
  let expected := (← ask (·.function ·)).ret
  match value with
  | none => if expected ≠ .void then fail .returnTypeMismatch keyword
  | some e => do
    emitWith .arga 0
    let found ← expr e
    if expected = .void ∨ found ≠ expected then fail .returnTypeMismatch keyword
    emit .store64
  emit .ret

mutual

/-- Lowers a statement. -/
def stmt : Stmt → Lower Unit
  | .decl d => decl d
  | .cond c => ifChain c
  | .loop c body => do
    emitWith .br 0
    let again ← here
    condition c
    let leave ← placeholder .br
    block body
    let back ← here
    emitWith .br (distance back again)
    patchJump leave (back + 1)
  | .ret keyword value => ret keyword value
  | .block b => block b
  | .empty => return ()
  | .expr e => do
    let _ ← expr e

/-- Lowers the statements of a block. -/
def block : Block → Lower Unit
  | .close => return ()
  | .cutOff d => throw d
  | .stmt s rest => do
    stmt s
    block rest

/-- Lowers a conditional statement. -/
def ifChain : IfChain → Lower Unit
  | .mk c body otherwise => do
    condition c
    let skip ← placeholder .br
    block body
    let jump ← elsePart otherwise
    let last ← here
    match jump with
    | some jump => do
      patchJump skip (jump.position + 1)
      patchJump jump (last + 1)
    | none => patchJump skip (last + 1)
    emitWith .br 0

/-- Lowers what follows a conditional block. The result is the jump around it. -/
def elsePart : Else → Lower (Option Site)
  | .absent => return none
  | .block b => do
    let jump ← placeholder .br
    block b
    return some jump
  | .chain c => do
    let jump ← placeholder .br
    ifChain c
    return some jump

end

end CZero.Lower
