import CZero.Image.Basic
import CZero.Symbol.Table
import CZero.Tree.Basic
import Mathlib.Algebra.Order.Ring.Nat

/-!
# The code of an expression

Code by structural recursion over the tree, with no symbol table, no buffer and no patching. All that
the code of an expression depends on is what the names in scope stand for, the result type of the
function around it, and how many globals there are so far, because each string literal takes the next
one.

    x            address of x, load64
    x = e        address of x, e, store64
    f(a, b)      stackalloc (result slots), a, b, call f
    a + b        a, b, addi
    a < b        a, b, cmpi, setlt, brtrue 1
    --a          a, negi, negi
-/

namespace CZero

/-! ### Names -/

/-- What a name stands for. -/
inductive Binding where
  /-- A variable, a constant or a parameter. -/
  | var (slot : Slot) (ty : Ty) (isConst : Bool)
  | fn (index : Nat) (ret : Ty)
deriving DecidableEq

/-- The names that one layer declares, the newest first. -/
abbrev Layer : Type :=
  List (String × Binding)

/-- The names in scope at a point of a program. -/
structure Names where
  /-- Globals and functions. -/
  outer : Layer
  /-- Parameters and local variables, inside a function. -/
  inner : Option Layer
deriving DecidableEq

/-- What a name stands for: the parameters and local variables hide what is global. -/
def Names.find? (names : Names) (name : String) : Option Binding :=
  (names.inner.bind (·.lookup name)).or (names.outer.lookup name)

/-- Makes a name stand for something in the innermost layer. -/
def Names.bind (names : Names) (name : String) (b : Binding) : Names :=
  match names.inner with
  | some inner => { names with inner := some ((name, b) :: inner) }
  | none => { names with outer := (name, b) :: names.outer }

/-- Whether the innermost layer declares a name. -/
def Names.declares (names : Names) (name : String) : Bool :=
  ((names.inner.getD names.outer).lookup name).isSome

/-- The names in scope, and the result type of the function around. -/
structure Env extends Names where
  ret : Ty
deriving DecidableEq

/-! ### Code -/

/-- Pushes the address of a slot. Parameters lie behind the result. -/
def Slot.code (retSlots : Nat) : Slot → List Instr
  | .arg i => [.withOperand .arga (Int64.ofNat (i + retSlots))]
  | .loc i => [.withOperand .loca (Int64.ofNat i)]
  | .glob i => [.withOperand .globa (Int64.ofNat i)]
  | .fn _ => []

/-- Pushes the address of the variable that a name stands for. -/
def Env.address (ρ : Env) (name : Ident) : List Instr :=
  match ρ.find? name.name with
  | some (.var slot _ _) => slot.code ρ.ret.returnSlots
  | _ => []

/-- Calls a function by its number. -/
def callOf (index : Nat) : Instr :=
  if index < libraryCount then .withOperand .callname (Int64.ofNat index)
  else .withOperand .call (Int64.ofNat (index - entryIndex))

/-- What follows the operands of an arithmetic operator. -/
def ArithOp.instr : ArithOp → Instr
  | .add => .plain .addi
  | .sub => .plain .subi
  | .mul => .plain .multi
  | .div => .plain .divi

/-- What follows the operands of a comparison: it skips one instruction if the comparison holds. -/
def CompareOp.code : CompareOp → List Instr
  | .eq => [.plain .cmpi, .withOperand .brfalse 1]
  | .ne => [.plain .cmpi, .withOperand .brtrue 1]
  | .lt => [.plain .cmpi, .plain .setlt, .withOperand .brtrue 1]
  | .gt => [.plain .cmpi, .plain .setgt, .withOperand .brtrue 1]
  | .le => [.plain .cmpi, .plain .setgt, .withOperand .brfalse 1]
  | .ge => [.plain .cmpi, .plain .setlt, .withOperand .brfalse 1]

/-- How many of the minus signs in a row before an operand negate it. It is all of them as long as a signed
number of 32 bits can count them. -/
def effectiveSigns (signs : Nat) : Nat :=
  if signs % 2 ^ 32 < 2 ^ 31 then signs % 2 ^ 32 else 0

theorem effectiveSigns_of_lt {signs : Nat} (h : signs < 2 ^ 31) : effectiveSigns signs = signs := by
  have small : signs % 2 ^ 32 = signs := Nat.mod_eq_of_lt (by omega)
  rw [effectiveSigns, small, if_pos h]

theorem effectiveSigns_le (signs : Nat) : effectiveSigns signs ≤ signs := by
  rw [effectiveSigns]
  split
  · exact Nat.mod_le ..
  · exact Nat.zero_le _

mutual

/-- The string literals of an expression, from left to right. -/
def Expr.texts : Expr → List String
  | .string text => [text]
  | .assign _ e | .paren e | .neg _ e | .cast e _ | .cutOff e _ => e.texts
  | .call _ args => args.texts
  | .arith _ lhs rhs | .compare _ lhs rhs => lhs.texts ++ rhs.texts
  | .hole _ | .uint _ | .double _ | .char _ | .load _ => []

/-- The string literals of arguments, from left to right. -/
def Args.texts : Args → List String
  | .close | .cutOff _ => []
  | .arg e rest => e.texts ++ rest.texts

end

theorem Expr.texts_negate (e : Expr) : e.negate.texts = e.texts := by
  cases e <;> rfl

mutual

/-- The code of an expression behind `n` globals. -/
def Expr.code (ρ : Env) (n : Nat) : Expr → List Instr
  | .hole _ | .cutOff _ _ | .double _ => []
  | .uint value => [.withOperand .push value.toInt64]
  | .string _ => [.withOperand .push (Int64.ofNat n)]
  | .char c => [.withOperand .push (Int64.ofNat c.toNat)]
  | .load name => ρ.address name ++ [.plain .load64]
  | .assign name e => ρ.address name ++ e.code ρ n ++ [.plain .store64]
  | .call name args =>
    match ρ.find? name.name with
    | some (.fn index ret) =>
      .withOperand .stackalloc (Int64.ofNat ret.returnSlots) :: args.code ρ n ++ [callOf index]
    | _ => []
  | .paren e | .cast e _ => e.code ρ n
  | .neg signs e => e.code ρ n ++ List.replicate (effectiveSigns signs) (.plain .negi)
  | .arith op lhs rhs => lhs.code ρ n ++ rhs.code ρ (n + lhs.texts.length) ++ [op.instr]
  | .compare op lhs rhs => lhs.code ρ n ++ rhs.code ρ (n + lhs.texts.length) ++ op.code

/-- The code of arguments behind `n` globals. -/
def Args.code (ρ : Env) (n : Nat) : Args → List Instr
  | .close | .cutOff _ => []
  | .arg e rest => e.code ρ n ++ rest.code ρ (n + e.texts.length)

end

/-! ### Types -/

mutual

/-- The type of an expression, if it keeps the static rules. -/
def Expr.type? (ρ : Env) : Expr → Option Ty
  | .hole _ | .cutOff _ _ => none
  | .uint _ | .string _ | .char _ => some .int
  | .double _ => some .double
  | .load name =>
    match ρ.find? name.name with
    | some (.var _ ty _) => some ty
    | _ => none
  | .assign name e =>
    match ρ.find? name.name, e.type? ρ with
    | some (.var _ .int false), some ty => if ty = .void then none else some .void
    | _, _ => none
  | .call name args =>
    match ρ.find? name.name with
    | some (.fn _ ret) => if args.typed ρ then some ret else none
    | _ => none
  | .paren e | .neg _ e => e.type? ρ
  | .cast e type => if (Ty.ofName? type.name).isSome then e.type? ρ else none
  | .arith _ lhs rhs | .compare _ lhs rhs => if (rhs.type? ρ).isSome then lhs.type? ρ else none

/-- Whether arguments keep the static rules. -/
def Args.typed (ρ : Env) : Args → Bool
  | .close => true
  | .cutOff _ => false
  | .arg e rest => (e.type? ρ).isSome && rest.typed ρ

end

end CZero
