import CZero.Image.Write
import CZero.Text.Column

/-!
# Reading an image

Reading takes the binary form apart field by field and stops at the first fault: too few bytes for a
field, a wrong magic number or version, a byte that is no operation, or bytes that are left at the
end. Any byte but zero marks a constant, and operands are read as signed numbers of their width.
-/

namespace CZero

/-- Why bytes are no image. -/
inductive ReadError where
  /-- The bytes end inside the field that starts at `offset`; `needed` more would complete it. -/
  | truncated (offset needed : Nat)
  | badMagic (found : UInt32)
  | unsupportedVersion (found : UInt32)
  | unknownOpcode (byte : UInt8) (offset : Nat)
  /-- There are bytes after the last function. -/
  | trailing (count : Nat)
deriving DecidableEq

/-- The wording of a read error. -/
def ReadError.message : ReadError → String
  | .truncated offset needed =>
    "unexpected end of module at byte " ++ toString offset ++ ", needed " ++ toString needed
      ++ " more"
  | .badMagic found => "bad magic number " ++ Text.hexWord 8 found.toNat
  | .unsupportedVersion found => "unsupported module version " ++ toString found.toNat
  | .unknownOpcode byte offset =>
    "unknown opcode " ++ Text.hexWord 2 byte.toNat ++ " at byte " ++ toString offset
  | .trailing count => toString count ++ " trailing bytes after function table"

/-- The number that bytes write, the most significant first. -/
def ofBigEndian (bytes : List UInt8) : Nat :=
  bytes.foldl (fun n b => 256 * n + b.toNat) 0

/-- The number that bytes write in two's complement. -/
def signedOfBigEndian (bytes : List UInt8) : Int64 :=
  Int64.ofInt ((ofBigEndian bytes : Int).bmod (1 <<< (8 * bytes.length)))

namespace Image

/-- Bytes that are partly read, and how many are behind. -/
structure Input where
  rest : List UInt8
  offset : Nat

/-- A reader of one field. -/
abbrev Reader (α : Type) : Type :=
  StateT Input (Except ReadError) α

namespace Reader

/-- The next `n` bytes. -/
def bytes (n : Nat) : Reader (List UInt8) := fun input =>
  let taken := input.rest.take n
  if taken.length < n then .error (.truncated input.offset (n - taken.length))
  else .ok (taken, ⟨input.rest.drop n, input.offset + n⟩)

/-- A number of `n` bytes. -/
def number (n : Nat) : Reader Nat := do
  return ofBigEndian (← bytes n)

/-- A number of four bytes. -/
def word : Reader UInt32 := do
  return UInt32.ofNat (← number 4)

/-- Reads `n` things of one kind. -/
def times {α : Type} (reader : Reader α) : Nat → Reader (List α)
  | 0 => return []
  | n + 1 => do
    let first ← reader
    let rest ← times reader n
    return first :: rest

/-- A global. -/
def readGlobal : Reader Global := do
  let flag ← number 1
  let length ← number 4
  let value ← bytes length
  return ⟨flag != 0, value⟩

/-- The operand of an operation, if it has one. -/
def operand (bias : Int64) (op : Opcode) : Reader (Option Int64) := do
  if op.hasOperand then
    let value := signedOfBigEndian (← bytes op.operandWidth)
    return some (if op = .globa then value - bias else value)
  else return none

/-- An instruction. -/
def instr (bias : Int64) : Reader Instr := do
  let offset := (← get).offset
  let byte := UInt8.ofNat (← number 1)
  match Opcode.ofByte? byte with
  | some op => return ⟨op, ← operand bias op⟩
  | none => throw (.unknownOpcode byte offset)

/-- A function. -/
def function (bias : Int64) : Reader Function := do
  let name ← word
  let retSlots ← word
  let paramSlots ← word
  let localSlots ← word
  let count ← number 4
  let body ← times (instr bias) count
  return ⟨name, retSlots, paramSlots, localSlots, body⟩

/-- A whole image, up to the end of the bytes. -/
def image : Reader Image := do
  let found ← word
  if found ≠ magic then throw (.badMagic found)
  let found ← word
  if found ≠ version then throw (.unsupportedVersion found)
  let globals ← times readGlobal (← number 4)
  let count ← number 4
  let functions ← times (function (globalBias count)) count
  let rest := (← get).rest
  if rest ≠ [] then throw (.trailing rest.length)
  return ⟨globals, functions⟩

end Reader

/-- The image that bytes write. -/
def ofBytes (bytes : List UInt8) : Except ReadError Image :=
  (Reader.image.run ⟨bytes, 0⟩).map (·.1)

end Image

end CZero
