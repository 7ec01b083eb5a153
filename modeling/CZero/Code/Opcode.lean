/-!
# Operations of the machine

Each operation has a mnemonic, a byte in the binary form, and a fixed number of operand bytes after
it. An operation without operand bytes takes no operand at all.
-/

namespace CZero

/-- What an instruction does. -/
inductive Opcode where
  /-- Push the operand. -/
  | push
  /-- Push the address of a local variable. -/
  | loca
  /-- Push the address of an argument; the result slots come first. -/
  | arga
  /-- Push the address of a global variable. -/
  | globa
  /-- Replace an address by the value stored there. -/
  | load64
  /-- Pop a value and an address, and store the value there. -/
  | store64
  /-- Push zeros. -/
  | stackalloc
  | addi
  | subi
  | multi
  | divi
  /-- Compare two integers; the result is -1, 0 or 1. -/
  | cmpi
  | negi
  /-- Whether a comparison found less. -/
  | setlt
  /-- Whether a comparison found more. -/
  | setgt
  /-- Jump by the operand, counted from the next instruction. -/
  | br
  /-- Jump if the popped value is zero. -/
  | brfalse
  /-- Jump if the popped value is not zero. -/
  | brtrue
  /-- Call a function of the program. -/
  | call
  /-- Return from a function. -/
  | ret
  /-- Call a library function. -/
  | callname
deriving DecidableEq

namespace Opcode

/-- Every operation, in the order of their bytes. -/
def all : List Opcode :=
  [.push, .loca, .arga, .globa, .load64, .store64, .stackalloc, .addi, .subi, .multi, .divi, .cmpi,
   .negi, .setlt, .setgt, .br, .brfalse, .brtrue, .call, .ret, .callname]

/-- The name of an operation. -/
def mnemonic : Opcode → String
  | .push => "push"
  | .loca => "loca"
  | .arga => "arga"
  | .globa => "globa"
  | .load64 => "load64"
  | .store64 => "store64"
  | .stackalloc => "stackalloc"
  | .addi => "addi"
  | .subi => "subi"
  | .multi => "multi"
  | .divi => "divi"
  | .cmpi => "cmpi"
  | .negi => "negi"
  | .setlt => "setlt"
  | .setgt => "setgt"
  | .br => "br"
  | .brfalse => "brfalse"
  | .brtrue => "brtrue"
  | .call => "call"
  | .ret => "ret"
  | .callname => "callname"

/-- The operation with the given name. -/
def ofMnemonic? (name : String) : Option Opcode :=
  all.find? (·.mnemonic == name)

/-- The byte that stands for an operation. -/
def byte : Opcode → UInt8
  | .push => 0x01
  | .loca => 0x0a
  | .arga => 0x0b
  | .globa => 0x0c
  | .load64 => 0x13
  | .store64 => 0x17
  | .stackalloc => 0x1a
  | .addi => 0x20
  | .subi => 0x21
  | .multi => 0x22
  | .divi => 0x23
  | .cmpi => 0x30
  | .negi => 0x34
  | .setlt => 0x39
  | .setgt => 0x3a
  | .br => 0x41
  | .brfalse => 0x42
  | .brtrue => 0x43
  | .call => 0x48
  | .ret => 0x49
  | .callname => 0x4a

/-- The operation that a byte stands for. -/
def ofByte? (b : UInt8) : Option Opcode :=
  all.find? (·.byte == b)

/-- How many bytes the operand takes. -/
def operandWidth : Opcode → Nat
  | .push => 8
  | .loca | .arga | .globa | .stackalloc | .br | .brfalse | .brtrue | .call | .callname => 4
  | _ => 0

/-- Whether an instruction with this operation needs an operand. -/
def hasOperand (op : Opcode) : Bool :=
  0 < op.operandWidth

/-- Whether the operation jumps depending on a value. -/
def isConditional : Opcode → Bool
  | .brfalse | .brtrue => true
  | _ => false

/-- Whether the operation jumps within a function. -/
def isBranch : Opcode → Bool
  | .br | .brfalse | .brtrue => true
  | _ => false

theorem mem_all (op : Opcode) : op ∈ all := by
  cases op <;> decide

/-- Different operations have different bytes. -/
theorem ofByte?_byte (op : Opcode) : ofByte? op.byte = some op := by
  cases op <;> decide

theorem byte_of_ofByte? {b : UInt8} {op : Opcode} (h : ofByte? b = some op) : op.byte = b := by
  simpa using List.find?_some h

end Opcode

end CZero
