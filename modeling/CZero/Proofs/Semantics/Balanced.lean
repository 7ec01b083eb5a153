import CZero.Proofs.Semantics.Integer

/-!
# Balanced programs

The code of an expression leaves as many values on the stack as the expression gives, and the code around it
takes as many as it asks for. Nothing checks that these are the same: a number with a fraction leaves no value,
a comparison leaves a branch, and a call takes what its function declares, whatever its arguments leave. A
program is balanced if they are. The function that a program starts in is never called then, since it has no
declaration.

    x = f(1) + 2          balanced, if f takes one argument and has a result
    x = 1.5               leaves nothing for x
    f()                   takes a value that it did not leave
    x = 1 + (y = 2)       has only one value to add
    a < b;                leaves a branch, which is for conditions only
-/

namespace CZero

mutual

/-- How many values an expression leaves, if each part leaves what it is used for. -/
def Expr.yield? (p : Program) : Expr → Option Nat
  | .hole _ | .cutOff _ _ | .compare _ _ _ => none
  | .double _ => some 0
  | .uint _ | .string _ | .char _ | .load _ => some 1
  | .assign _ e => if e.yield? p = some 1 then some 0 else none
  | .call x as =>
    match p.callee? x.name with
    | some f => if as.count = f.arity ∧ as.areValues p then some f.ret.returnSlots else none
    | none => none
  | .paren e | .cast e _ => e.yield? p
  | .neg _ e => if e.yield? p = some 1 then some 1 else none
  | .arith _ lhs rhs => if lhs.yield? p = some 1 ∧ rhs.yield? p = some 1 then some 1 else none

/-- Whether each argument leaves one value. -/
def Args.areValues (p : Program) : Args → Bool
  | .close => true
  | .cutOff _ => false
  | .arg e rest => e.yield? p = some 1 && rest.areValues p

end

/-- Whether an expression leaves one value. -/
def Expr.isValue (p : Program) (e : Expr) : Bool :=
  e.yield? p = some 1

/-- Whether an expression is a value or a comparison of values. -/
def Expr.isCondition (p : Program) : Expr → Bool
  | .paren e => e.isCondition p
  | .compare _ lhs rhs => lhs.isValue p && rhs.isValue p
  | e => e.isValue p

/-- Whether there is a value for what a declaration declares, if any is given. -/
def Decl.isBalanced (p : Program) (d : Decl) : Bool :=
  d.init.all (·.isValue p)

mutual

/-- Whether a statement is balanced. What an expression leaves may stay on the stack. -/
def Stmt.isBalanced (p : Program) : Stmt → Bool
  | .decl d => d.isBalanced p
  | .cond c => c.isBalanced p
  | .loop c body => c.isCondition p && body.isBalanced p
  | .ret _ value => value.all (·.isValue p)
  | .block b => b.isBalanced p
  | .empty => true
  | .expr e => (e.yield? p).isSome

/-- Whether the statements of a block are balanced. -/
def Block.isBalanced (p : Program) : Block → Bool
  | .close => true
  | .cutOff _ => false
  | .stmt s rest => s.isBalanced p && rest.isBalanced p

/-- Whether a conditional statement is balanced. -/
def IfChain.isBalanced (p : Program) : IfChain → Bool
  | .mk c body otherwise => c.isCondition p && body.isBalanced p && otherwise.isBalanced p

/-- Whether what follows a conditional block is balanced. -/
def Else.isBalanced (p : Program) : Else → Bool
  | .absent => true
  | .block b => b.isBalanced p
  | .chain c => c.isBalanced p

end

/-- Whether a part of a program is balanced. -/
def Item.isBalanced (p : Program) : Item → Bool
  | .fn f => f.body.isBalanced p
  | .decl d => d.isBalanced p

/-- Whether a program is balanced. -/
def Program.isBalanced (p : Program) : Bool :=
  p.items.all (·.isBalanced p)

end CZero
