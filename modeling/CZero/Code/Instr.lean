import CZero.Code.Opcode
import CZero.Text.Json

/-!
# Instructions

An operation with an operand that may be missing. A missing operand is not a zero: it marks a branch
or an address that is still to be filled in.
-/

namespace CZero

/-- One instruction of a function. -/
structure Instr where
  opcode : Opcode
  operand : Option Int64
deriving DecidableEq

namespace Instr

/-- An instruction without an operand. -/
def plain (op : Opcode) : Instr :=
  ⟨op, none⟩

/-- An instruction with an operand. -/
def withOperand (op : Opcode) (value : Int64) : Instr :=
  ⟨op, some value⟩

/-- Whether the operand is there exactly if the operation needs one. -/
def isWellFormed (i : Instr) : Bool :=
  i.opcode.hasOperand == i.operand.isSome

/-- An instruction as `push(5)` or `ret`. -/
def text (i : Instr) : String :=
  match i.operand with
  | some v => i.opcode.mnemonic ++ "(" ++ toString v.toInt ++ ")"
  | none => i.opcode.mnemonic

/-- An instruction as a record of its two parts. -/
def json (i : Instr) : Json :=
  .record [
    ("opcode", .word i.opcode.mnemonic),
    ("operand", match i.operand with
      | some v => .int v.toInt
      | none => .null)]

end Instr

end CZero
