import CZero.Token.Basic

/-!
# Syntax trees

The tree of a program follows the grammar below; `Type` and every name are identifiers.

    Program  →  (Function | Decl)*
    Function →  'fn' Name '(' (Param (',' Param)*)? ')' '->' Type Block
    Param    →  'const'? Name ':' Type
    Decl     →  'let' Name ':' Type ('=' Expr)? ';'  |  'const' Name ':' Type '=' Expr ';'
    Block    →  '{' Stmt* '}'
    Stmt     →  Decl | If | 'while' Expr Block | 'return' Expr? ';' | Block | ';' | Expr ';'
    If       →  'if' Expr Block ('else' (If | Block))?
    Expr     →  Sum (('==' | '!=' | '<' | '>' | '<=' | '>=') Sum)?
    Sum      →  Term (('+' | '-') Term)*
    Term     →  Cast (('*' | '/') Cast)*
    Cast     →  Unary ('as' Type)?
    Unary    →  '-'* Primary
    Primary  →  Name | Name '=' Expr | Name '(' (Expr (',' Expr)*)? ')'
              | integer | double | string | char | '(' Expr ')'

A source that is no program has a tree too. It is complete up to the token at which the source stops
being the beginning of a program, and holds the diagnostic for that token at this place, as a hole or
as the cut-off end of a list. Reading a tree from left to right therefore meets the faults of names
and types and the fault of the grammar in the order in which the source has them.
-/

namespace CZero

/-- A name and where it stands. -/
structure Ident where
  name : String
  start : Position
deriving DecidableEq

/-- The operators on integers. -/
inductive ArithOp where
  | add | sub | mul | div
deriving DecidableEq

/-- The comparisons. -/
inductive CompareOp where
  | eq | ne | lt | gt | le | ge
deriving DecidableEq

mutual

/-- An expression. -/
inductive Expr where
  /-- Nothing could be read here. -/
  | hole (d : Diagnostic)
  /-- Nothing could be read after `e`. -/
  | cutOff (e : Expr) (d : Diagnostic)
  | uint (value : UInt64)
  | double (value : Binary64)
  | string (text : String)
  | char (c : Char)
  | load (name : Ident)
  | assign (name : Ident) (value : Expr)
  | call (name : Ident) (args : Args)
  | paren (e : Expr)
  /-- An operand behind minus signs in a row. -/
  | neg (signs : Nat) (e : Expr)
  | cast (e : Expr) (type : Ident)
  | arith (op : ArithOp) (lhs rhs : Expr)
  | compare (op : CompareOp) (lhs rhs : Expr)

/-- The arguments of a call. -/
inductive Args where
  | close
  | cutOff (d : Diagnostic)
  | arg (e : Expr) (rest : Args)

end

/-- An expression behind one more minus sign. -/
def Expr.negate : Expr → Expr
  | .neg signs e => .neg (signs + 1) e
  | e => .neg 1 e

/-- The declaration of a variable or a constant. -/
structure Decl where
  isConst : Bool
  name : Ident
  type : Ident
  init : Option Expr
  /-- Set if no semicolon ends the declaration. -/
  cutOff : Option Diagnostic

mutual

/-- A statement. -/
inductive Stmt where
  | decl (d : Decl)
  | cond (c : IfChain)
  | loop (cond : Expr) (body : Block)
  | ret (keyword : Position) (value : Option Expr)
  | block (b : Block)
  | empty
  | expr (e : Expr)

/-- The statements of a block. -/
inductive Block where
  | close
  | cutOff (d : Diagnostic)
  | stmt (s : Stmt) (rest : Block)

/-- A condition, the block it guards, and what follows `else`. -/
inductive IfChain where
  | mk (cond : Expr) (body : Block) (otherwise : Else)

/-- What follows a conditional block. -/
inductive Else where
  | absent
  | block (b : Block)
  | chain (c : IfChain)

end

/-- A parameter of a function. -/
structure Param where
  isConst : Bool
  name : Ident
  type : Ident

/-- A function. -/
structure FnItem where
  name : Ident
  params : List Param
  /-- The result type, or what is wrong between the last complete parameter and that type. -/
  type : Except Diagnostic Ident
  body : Block

/-- A part of a program. -/
inductive Item where
  | fn (f : FnItem)
  | decl (d : Decl)

/-- A program: its parts, and the end of the source or what stands there instead of a part. -/
structure Program where
  items : List Item
  finish : Except Diagnostic Position

end CZero
