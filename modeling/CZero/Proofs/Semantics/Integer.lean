import CZero.Proofs.Semantics.Eval

/-!
# The integer language

Programs in which every value is an integer: no floating-point numbers, every call gives its function as
many arguments as that declares, what is used as a value is one, and comparisons are whole conditions.
Fewer than `2 ^ 31` minus signs stand in a row, which is as many as the compiler can count: from there on it
would leave out all of them, and an odd number of signs would change nothing.
-/

namespace CZero

/-- A library function that does not deal with floating-point numbers. -/
def LibraryFn.isInteger : LibraryFn → Bool
  | .getdouble | .putdouble => false
  | .getint | .getchar | .putint | .putchar | .putstr | .putln => true

namespace Callee

/-- How many arguments a function takes. -/
def arity : Callee → Nat
  | .library f => f.params.length
  | .declared f _ => f.params.length

/-- The result type of a function. -/
def ret : Callee → Ty
  | .library f => f.ret
  | .declared f _ => f.ret

/-- Not a library function that deals with floating-point numbers. -/
def isInteger : Callee → Bool
  | .library f => f.isInteger
  | .declared _ _ => true

end Callee

/-- How many arguments there are. -/
def Args.count : Args → Nat
  | .close | .cutOff _ => 0
  | .arg _ rest => rest.count + 1

mutual

/-- Whether an expression of the integer language gives a value (`int`) or none (`void`). -/
def Expr.kind? (p : Program) : Expr → Option Ty
  | .hole _ | .cutOff _ _ | .double _ | .compare _ _ _ => none
  | .uint _ | .string _ | .char _ | .load _ => some .int
  | .assign _ e => if e.kind? p = some .int then some .void else none
  | .call x as =>
    match p.callee? x.name with
    | some f => if f.isInteger ∧ as.count = f.arity ∧ as.areIntegers p then some f.ret else none
    | none => none
  | .paren e | .cast e _ => e.kind? p
  | .neg signs e => if signs < 2 ^ 31 ∧ e.kind? p = some .int then some .int else none
  | .arith _ lhs rhs => if lhs.kind? p = some .int ∧ rhs.kind? p = some .int then some .int else none

/-- Whether all arguments give values. -/
def Args.areIntegers (p : Program) : Args → Bool
  | .close => true
  | .cutOff _ => false
  | .arg e rest => e.kind? p = some .int && rest.areIntegers p

end

/-- Whether an expression gives a value. -/
def Expr.isInteger (p : Program) (e : Expr) : Bool :=
  e.kind? p = some .int

/-- Whether an expression is a condition of the integer language. -/
def Expr.isTest (p : Program) : Expr → Bool
  | .paren e => e.isTest p
  | .compare _ lhs rhs => lhs.isInteger p && rhs.isInteger p
  | e => e.isInteger p

/-- Whether a declaration declares an integer. -/
def Decl.isInteger (p : Program) (d : Decl) : Bool :=
  d.type.name = "int" && d.init.all (·.isInteger p)

mutual

/-- Whether a statement belongs to the integer language. -/
def Stmt.isInteger (p : Program) : Stmt → Bool
  | .decl d => d.isInteger p
  | .cond c => c.isInteger p
  | .loop c body => c.isTest p && body.isInteger p
  | .ret _ value => value.all (·.isInteger p)
  | .block b => b.isInteger p
  | .empty => true
  | .expr e => (e.kind? p).isSome

/-- Whether the statements of a block belong to the integer language. -/
def Block.isInteger (p : Program) : Block → Bool
  | .close => true
  | .cutOff _ => false
  | .stmt s rest => s.isInteger p && rest.isInteger p

/-- Whether a conditional statement belongs to the integer language. -/
def IfChain.isInteger (p : Program) : IfChain → Bool
  | .mk c body otherwise => c.isTest p && body.isInteger p && otherwise.isInteger p

/-- Whether what follows a conditional block belongs to the integer language. -/
def Else.isInteger (p : Program) : Else → Bool
  | .absent => true
  | .block b => b.isInteger p
  | .chain c => c.isInteger p

end

/-- Whether a part of a program belongs to the integer language. -/
def Item.isInteger (p : Program) : Item → Bool
  | .fn f =>
    f.params.all (·.type.name = "int") && (f.ret = .int || f.ret = .void) && f.body.isInteger p &&
      (f.name.name ≠ mainName || f.params.isEmpty)
  | .decl d => d.isInteger p

/-- Whether a program belongs to the integer language. -/
def Program.isInteger (p : Program) : Bool :=
  p.items.all (·.isInteger p)

end CZero
