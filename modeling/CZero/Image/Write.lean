import CZero.Image.Basic

/-!
# Writing an image

The binary form has the most significant byte of every number first:

    magic 4 | version 4
    globals 4   | ( constant 1 | length 4 | bytes )*
    functions 4 | ( name 4 | result 4 | parameters 4 | locals 4 | instructions 4 | instruction* )*

An instruction is the byte of its operation and as many bytes of its operand as the operation has,
the low ones. A missing operand is written as zero, and the number of a global with the bias added.
-/

namespace CZero

/-- The last `k` bytes of a number, the most significant first. -/
def bigEndian : Nat → Nat → List UInt8
  | 0, _ => []
  | k + 1, n => UInt8.ofNat (n >>> (8 * k)) :: bigEndian k n

@[simp] theorem length_bigEndian (k n : Nat) : (bigEndian k n).length = k := by
  induction k with
  | zero => rfl
  | succ k ih => simp [bigEndian, ih]

namespace Image

/-- The first number of every image. -/
def magic : UInt32 := 0x72303b3e

/-- The version of the binary form. -/
def version : UInt32 := 1

/-- A number of four bytes. -/
def word (n : Nat) : List UInt8 :=
  bigEndian 4 n

/-- The operand that is written for an instruction. -/
def writtenOperand (bias : Int64) (i : Instr) : Int64 :=
  let value := i.operand.getD 0
  if i.opcode = .globa then value + bias else value

/-- The bytes of an instruction. -/
def instrBytes (bias : Int64) (i : Instr) : List UInt8 :=
  i.opcode.byte :: bigEndian i.opcode.operandWidth (writtenOperand bias i).toUInt64.toNat

/-- The bytes of a global. -/
def globalBytes (g : Global) : List UInt8 :=
  (if g.isConst then 1 else 0) :: word g.value.length ++ g.value

/-- The bytes of a function. -/
def functionBytes (bias : Int64) (f : Function) : List UInt8 :=
  word f.name.toNat ++ word f.retSlots.toNat ++ word f.paramSlots.toNat ++ word f.localSlots.toNat
    ++ word f.body.length ++ f.body.flatMap (instrBytes bias)

/-- The binary form of an image. -/
def toBytes (m : Image) : List UInt8 :=
  word magic.toNat ++ word version.toNat
    ++ word m.globals.length ++ m.globals.flatMap globalBytes
    ++ word m.functions.length ++ m.functions.flatMap (functionBytes m.bias)

end Image

end CZero
