/-!
# Faults of a running program

A run that cannot go on ends with a fault. Integers in a fault are the values that the program had
on its stack or in an instruction.
-/

namespace CZero

/-- Why a run stopped. -/
inductive Fault where
  /-- There are fewer values on the stack than an instruction takes. -/
  | stackUnderflow
  /-- No variable has this address. -/
  | invalidAddress (address : Int64)
  /-- A jump leaves its function. -/
  | invalidJump (target : Int64) (length : Nat)
  | unknownFunction (index : Int64)
  | unknownLibraryFn (index : Int64)
  | missingOperand (mnemonic : String)
  | divisionByZero
  /-- The program reads more values than it was given. -/
  | inputExhausted
  /-- No character has this code. -/
  | invalidCharacter (code : Int64)
  /-- The global does not exist or is no text. -/
  | notAString (global : Int64)
  /-- The program wants to execute more instructions than allowed. -/
  | stepLimitExceeded (limit : UInt64)
deriving DecidableEq

/-- The wording of a fault. -/
def Fault.message : Fault → String
  | .stackUnderflow => "stack underflow"
  | .invalidAddress address => "invalid address " ++ toString address.toInt
  | .invalidJump target length =>
    "branch to " ++ toString target.toInt ++ " outside function of " ++ toString length
      ++ " instructions"
  | .unknownFunction index => "unknown function " ++ toString index.toInt
  | .unknownLibraryFn index => "unknown library function " ++ toString index.toInt
  | .missingOperand mnemonic => "missing operand on " ++ mnemonic
  | .divisionByZero => "division by zero"
  | .inputExhausted => "input exhausted"
  | .invalidCharacter code => "invalid character code " ++ toString code.toInt
  | .notAString global => "global " ++ toString global.toInt ++ " is not a string"
  | .stepLimitExceeded limit => "step limit of " ++ toString limit ++ " exceeded"

end CZero
