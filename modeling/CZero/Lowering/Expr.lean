import CZero.Lowering.Context

/-!
# Lowering expressions

Code for an expression leaves its value on the stack. Operands come before their operator, from left
to right. Two kinds of expression leave none: a floating-point literal, which only has a type, and a
comparison. The latter ends in a branch over one instruction, which is taken when it holds.

The type of an operation is that of its first operand, whatever the second one is. A cast has the
type of its operand. Minus signs in a row are counted in 32 bits before their operand is negated that
many times, and a count that has become negative negates nothing.
-/

namespace CZero

/-- The operation for an arithmetic operator. -/
def ArithOp.opcode : ArithOp → Opcode
  | .add => .addi
  | .sub => .subi
  | .mul => .multi
  | .div => .divi

/-- What turns the order of two integers into a branch, for each comparison: an optional test, and
the branch. -/
def CompareOp.test : CompareOp → Option Opcode × Opcode
  | .eq => (none, .brfalse)
  | .ne => (none, .brtrue)
  | .lt => (some .setlt, .brtrue)
  | .gt => (some .setgt, .brtrue)
  | .le => (some .setgt, .brfalse)
  | .ge => (some .setlt, .brfalse)

namespace Lower

/-- How many times an operand behind minus signs in a row is negated. -/
def negations (signs : Nat) : Nat :=
  (Int32.ofNat signs).toNatClampNeg

/-- Negates the value on top of the stack `n` times. -/
def negate : Nat → Lower Unit
  | 0 => return ()
  | n + 1 => do
    emit .negi
    negate n

/-- Pushes the address of a variable. The arguments of a function lie behind its result. -/
def address (name : Ident) : Slot → Lower Unit
  | .arg i => do
    let info ← ask (·.function ·)
    emitWith .arga (Int64.ofNat (i + info.returnSlots))
  | .loc i => emitWith .loca (Int64.ofNat i)
  | .glob i => emitWith .globa (Int64.ofNat i)
  | .fn _ => fail (.notDeclared name.name) name.start

/-- The function that a name stands for. -/
def callee (name : Ident) : Lower FnInfo := do
  let (_, s) ← resolve name
  match s.function? with
  | some info => return info
  | none => fail (.notDeclared name.name) name.start

/-- The call instruction for a function. -/
def callInstr (index : Nat) : Lower Unit :=
  if index < libraryCount then emitWith .callname (Int64.ofNat index)
  else emitWith .call (Int64.ofNat (index - entryIndex))

/-- The variable that an assignment to a name changes. -/
def target (name : Ident) : Lower (Nat × Slot) := do
  let (id, s) ← resolve name
  if !s.isIntVariable then fail .invalidAssignment name.start
  if s.isConst then fail (.assignToConstant name.name) name.start
  return (id, s.slot)

/-- Refuses to store the result of something that has none. -/
def storable (name : Ident) (ty : Ty) : Lower Unit := do
  if ty = .void then fail .invalidAssignment name.start

mutual

/-- Lowers an expression. The result is its type. -/
def expr : Expr → Lower Ty
  | .hole d => throw d
  | .cutOff e d => do
    let _ ← expr e
    throw d
  | .uint value => do
    emitWith .push value.toInt64
    return .int
  | .double _ => return .double
  | .string text => do
    let slot ← update .nowhere fun t => .ok (t.declareLiteral text)
    emitWith .push (Int64.ofNat slot)
    return .int
  | .char c => do
    emitWith .push (Int64.ofNat c.toNat)
    return .int
  | .load name => do
    let (_, s) ← resolve name
    address name s.slot
    emit .load64
    return s.ty
  | .assign name value => do
    let (id, slot) ← target name
    address name slot
    storable name (← expr value)
    emit .store64
    update .nowhere fun t => .ok ((), t.markInit id)
    return .void
  | .call name arguments => do
    let info ← callee name
    emitWith .stackalloc (Int64.ofNat info.returnSlots)
    args arguments
    callInstr info.index
    return info.ret
  | .paren e => expr e
  | .neg signs e => do
    let ty ← expr e
    negate (negations signs)
    return ty
  | .cast e type => do
    let ty ← expr e
    let _ ← resultType type
    return ty
  | .arith op lhs rhs => do
    let ty ← expr lhs
    let _ ← expr rhs
    emit op.opcode
    return ty
  | .compare op lhs rhs => do
    let ty ← expr lhs
    let _ ← expr rhs
    emit .cmpi
    let (test, branch) := op.test
    if let some test := test then emit test
    emitWith branch 1
    return ty

/-- Lowers the arguments of a call. Neither their number nor their types are checked. -/
def args : Args → Lower Unit
  | .close => return ()
  | .cutOff d => throw d
  | .arg e rest => do
    let _ ← expr e
    args rest

end

/-- Lowers a condition, so that it ends in a branch over one instruction that is taken when it holds.
If the code so far already ends in a branch, no other is added. -/
def condition (e : Expr) : Lower Unit := do
  let _ ← expr e
  let last ← ask (·.lastOpcode? ·)
  if !last.any Opcode.isConditional then emitWith .brtrue 1

end Lower

end CZero
