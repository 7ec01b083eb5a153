import CZero.Code.Instr
import CZero.Library

/-!
# Program images

An image is a compiled program: the table of its globals and the table of its functions. Variables
and string literals come first among the globals, then the names of all functions, the library's
included. Function 0 is where the machine starts.
-/

namespace CZero

/-- A global: the bytes of a scalar, of a text or of a name. -/
structure Global where
  isConst : Bool
  value : List UInt8
deriving DecidableEq

namespace Global

/-- Eight zero bytes, the value every scalar starts with. -/
def zeros : List UInt8 :=
  List.replicate 8 0

/-- A variable or a constant. -/
def scalar (isConst : Bool) : Global :=
  ⟨isConst, zeros⟩

/-- A string literal or the name of a function. -/
def ofText (s : String) : Global :=
  ⟨true, s.toUTF8.data.toList⟩

/-- The value as text, if it is well-formed UTF-8. -/
def text? (g : Global) : Option String :=
  String.fromUTF8? ⟨g.value.toArray⟩

end Global

/-- A function: the global that holds its name, its slots on the stack, and its code. -/
structure Function where
  name : UInt32
  retSlots : UInt32
  paramSlots : UInt32
  localSlots : UInt32
  body : List Instr
deriving DecidableEq

/-- A compiled program. -/
structure Image where
  globals : List Global
  functions : List Function
deriving DecidableEq

namespace Image

/-- What the binary form adds to the number of a global in an address. -/
def globalBias (functionCount : Nat) : Int64 :=
  Int64.ofNat (functionCount + libraryCount)

/-- The bias of this image. -/
def bias (m : Image) : Int64 :=
  globalBias m.functions.length

/-- The instruction at place `pc` of a function. -/
def instr? (m : Image) (function pc : Nat) : Option Instr :=
  m.functions[function]?.bind (·.body[pc]?)

/-- The name of a function, looked up among the globals. -/
def functionName? (m : Image) (f : Function) : Option String :=
  m.globals[f.name.toNat]?.bind Global.text?

end Image

end CZero
