import CZero.Position

/-!
# Diagnostics

Compilation stops at the first fault of a program. A `Cause` says what is wrong, a `Diagnostic`
adds where. Causes come in three groups: characters that form no token (lexical), a token that
the grammar does not allow there (grammar), and a program that breaks a static rule.
-/

namespace CZero

/-- What is wrong with a program. -/
inductive Cause where
  /-- No token starts with this character. -/
  | unexpectedCharacter (c : Char)
  /-- A backslash is followed by a character that has no escaped meaning. -/
  | invalidEscape (c : Char)
  /-- A string or character literal has no closing quote on its line. -/
  | unterminatedLiteral
  /-- A character literal is empty or holds more than one character. -/
  | invalidCharLiteral
  /-- An integer literal needs more than 64 bits. -/
  | integerTooLarge (digits : String)
  /-- The grammar allows only the `expected` tokens here. -/
  | expectedToken (expected : List String) (found : String)
  /-- The name is already taken. -/
  | duplicateDeclaration (name : String)
  /-- The name stands for nothing, or for something else than its use asks for. -/
  | notDeclared (name : String)
  /-- The target of an assignment is a constant. -/
  | assignToConstant (name : String)
  /-- A value of this type cannot be stored here. -/
  | invalidAssignment
  /-- A `return` does not fit its function's result type. -/
  | returnTypeMismatch
  /-- There is no function named `main`. -/
  | mainMissing
  /-- No type has this name. -/
  | unknownType (name : String)
  /-- An instruction that needs an operand has none, or a reference leads nowhere. -/
  | unresolvedOperand (what : String)
deriving DecidableEq

namespace Cause

/-- Whether the fault lies in the characters of a token. -/
def isLexical : Cause → Bool
  | .unexpectedCharacter _ | .invalidEscape _ | .unterminatedLiteral | .invalidCharLiteral
  | .integerTooLarge _ => true
  | _ => false

/-- Whether the fault lies in the order of the tokens. -/
def isGrammar : Cause → Bool
  | .expectedToken .. => true
  | _ => false

/-- The wording of a cause. -/
def message : Cause → String
  | .unexpectedCharacter c => "unexpected character '" ++ c.toString ++ "'"
  | .invalidEscape c => "invalid escape sequence '\\" ++ c.toString ++ "'"
  | .unterminatedLiteral => "unterminated literal"
  | .invalidCharLiteral => "char literal must hold exactly one character"
  | .integerTooLarge digits => "integer literal '" ++ digits ++ "' is too large"
  | .expectedToken expected found =>
    "expected " ++ " or ".intercalate expected ++ ", found " ++ found
  | .duplicateDeclaration name => "duplicate declaration of '" ++ name ++ "'"
  | .notDeclared name => "'" ++ name ++ "' is not declared"
  | .assignToConstant name => "cannot assign to constant '" ++ name ++ "'"
  | .invalidAssignment => "invalid assignment"
  | .returnTypeMismatch => "return type does not match function signature"
  | .mainMissing => "main function missing"
  | .unknownType name => "unknown type '" ++ name ++ "'"
  | .unresolvedOperand what => "unresolved operand for '" ++ what ++ "'"

end Cause

/-- The first fault of a program and the place it is reported at. -/
structure Diagnostic where
  cause : Cause
  position : Position
deriving DecidableEq

/-- A diagnostic as `line:column: wording`. -/
def Diagnostic.message (d : Diagnostic) : String :=
  d.position.text ++ ": " ++ d.cause.message

end CZero
