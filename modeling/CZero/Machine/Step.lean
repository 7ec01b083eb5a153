import CZero.Binary64.Shortest
import CZero.Machine.State

/-!
# One instruction

The instruction is already fetched: its frame points to the one after it, from where jumps are
counted. Integer arithmetic wraps around, and division drops the fraction.
-/

namespace CZero.Action

/-- The operand of an instruction. -/
def operand (i : Instr) : Action Int64 :=
  match i.operand with
  | some v => pure v
  | none => throw (.missingOperand i.opcode.mnemonic)

/-- The operand of an instruction as a number of slots. -/
def slotOperand (i : Instr) : Action Nat := do
  let v ← operand i
  match index? v with
  | some n => pure n
  | none => throw (.invalidAddress v)

/-- Replaces two values by the result of an operation on them. -/
def binary (op : Int64 → Int64 → Int64) : Action Unit := do
  let rhs ← pop
  let lhs ← pop
  push (op lhs rhs)

/-- Replaces a value by the result of an operation on it. -/
def unary (op : Int64 → Int64) : Action Unit := do
  push (op (← pop))

/-- A truth value as an integer. -/
def ofBool (b : Bool) : Int64 :=
  if b then 1 else 0

/-- The order of two integers as -1, 0 or 1. -/
def compare (lhs rhs : Int64) : Int64 :=
  if lhs < rhs then -1 else if lhs = rhs then 0 else 1

/-- Divides one integer by another. -/
def divide : Action Unit := do
  let rhs ← pop
  let lhs ← pop
  if rhs = 0 then throw .divisionByZero
  push (lhs / rhs)

/-- Goes on at another place of the running function, or just behind its last instruction. -/
def jump (m : Image) (offset : Int64) : Action Unit := fun s =>
  match s.frames with
  | [] => .error .stackUnderflow s
  | f :: callers =>
    let length := (m.functions[f.function]?.map (·.body.length)).getD 0
    let target := Int64.ofNat f.pc + offset
    match index? target with
    | some pc =>
      if pc ≤ length then .ok () { s with frames := { f with pc } :: callers }
      else .error (.invalidJump target length) s
    | none => .error (.invalidJump target length) s

/-- Starts a function, whose result slots and arguments are already on the stack. -/
def call (m : Image) (index : Int64) : Action Unit := fun s =>
  match (index? index).bind fun i => m.functions[i]?.map fun f => (i, f) with
  | none => .error (.unknownFunction index) s
  | some (i, f) =>
    let taken := f.retSlots.toNat + f.paramSlots.toNat
    if s.stack.size < taken then .error .stackUnderflow s
    else
      let frame := Frame.enter i (s.stack.size - taken) f.retSlots.toNat f.paramSlots.toNat
      pushZeros f.localSlots.toNat { s with frames := frame :: s.frames }

/-- Ends the running function. -/
def ret : Action Unit := fun s =>
  match s.frames with
  | [] => .ok () s
  | f :: callers => .ok () { s with stack := State.leave f callers s.stack, frames := callers }

/-- The character with the given code. -/
def charOfCode? (code : Int64) : Option Char :=
  (index? code).bind fun n => if n.isValidChar then some (Char.ofNat n) else none

/-- Runs a library function. Arguments are on top of the stack, and a result replaces the top. -/
def library (m : Image) : LibraryFn → Action Unit
  | .getint | .getchar => do setTop (← read)
  | .getdouble => do setTop (Binary64.ofInt64 (← read)).bits.toInt64
  | .putint => do write (toString (← pop).toInt)
  | .putdouble => do write (Binary64.text ⟨(← pop).toUInt64⟩)
  | .putchar => do
    let code ← pop
    match charOfCode? code with
    | some c => write c.toString
    | none => throw (.invalidCharacter code)
  | .putstr => do
    let global ← pop
    match (index? global).bind fun i => m.globals[i]?.bind Global.text? with
    | some text => write text
    | none => throw (.notAString global)
  | .putln => write "\n"

/-- Executes one instruction. -/
def perform (m : Image) (i : Instr) : Action Unit :=
  match i.opcode with
  | .push => do push (← operand i)
  | .loca => do
    let index ← slotOperand i
    push (Int64.ofNat ((← frame).localAddress index))
  | .arga => do
    let index ← slotOperand i
    push (Int64.ofNat ((← frame).argAddress index))
  | .globa => do push (globalBase + (← operand i))
  | .stackalloc => do pushZeros (← slotOperand i)
  | .load64 => do push (← load (← pop))
  | .store64 => do
    let value ← pop
    let address ← pop
    store address value
  | .addi => binary (· + ·)
  | .subi => binary (· - ·)
  | .multi => binary (· * ·)
  | .divi => divide
  | .negi => unary (- ·)
  | .cmpi => binary compare
  | .setlt => unary fun v => ofBool (v < 0)
  | .setgt => unary fun v => ofBool (0 < v)
  | .br => do jump m (← operand i)
  | .brfalse => do
    let offset ← operand i
    if (← pop) = 0 then jump m offset
  | .brtrue => do
    let offset ← operand i
    if (← pop) ≠ 0 then jump m offset
  | .call => do call m (← operand i)
  | .ret => ret
  | .callname => do
    let index ← operand i
    match (index? index).bind (LibraryFn.all[·]?) with
    | some f => library m f
    | none => throw (.unknownLibraryFn index)

end CZero.Action
