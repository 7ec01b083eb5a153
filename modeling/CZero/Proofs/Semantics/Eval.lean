import CZero.Machine.Step
import CZero.Proofs.Codegen.Program
import Mathlib.Logic.Function.Iterate

/-!
# What a program means

Evaluation of a tree, with names and values and without code, addresses or a stack. Integers are 64 bits
wide and wrap around, division drops the fraction, and operands are evaluated from left to right.
Global variables get their values in the order of the source, and then `main` is called.

    a name           the parameter or local variable declared before this place, or else the global
    a local          holds zero until it is assigned; a block does not hide what it declares
    a string         the number of the global that it takes
    -e               minus e, once for each sign
    e as t           e
    end of a body    the result is zero, if the function has one

Evaluation takes fuel: so many calls inside each other, and so many rounds of each loop, are allowed.
What has no meaning here, such as the value of a call without a result, is stuck.
-/

namespace CZero

/-- Why an evaluation gives no result. -/
inductive Stop where
  | fault (e : Fault)
  /-- There was not enough fuel. -/
  | timeout
  /-- There is no meaning. -/
  | stuck
deriving DecidableEq

/-- What all functions share. -/
structure World where
  globals : String → Int64
  console : Console

/-- What a function sees. -/
structure Store extends World where
  /-- The parameters and local variables of the function. -/
  locals : String → Int64

/-- An evaluation inside of a function. -/
abbrev Eval (α : Type) : Type :=
  EStateM Stop Store α

/-- An evaluation of a function as a whole, or outside of functions. -/
abbrev Outer (α : Type) : Type :=
  EStateM Stop World α

/-- What the functions do that a program can call. A function without a result gives none. -/
abbrev Callees : Type :=
  String → List Int64 → Outer (Option Int64)

namespace Eval

/-- Evaluates outside, and keeps the local variables. -/
def ofOuter {α : Type} (x : Outer α) : Eval α := fun s =>
  match x s.toWorld with
  | .ok a w => .ok a { s with toWorld := w }
  | .error e w => .error e { s with toWorld := w }

/-- Evaluates inside of a function that starts with the given variables. -/
def toOuter {α : Type} (locals : String → Int64) (x : Eval α) : Outer α := fun w =>
  match x ⟨w, locals⟩ with
  | .ok a s => .ok a s.toWorld
  | .error e s => .error e s.toWorld

/-- The value of a name where the variables `σ` are declared. -/
def load (σ : List String) (x : String) : Eval Int64 := fun s =>
  .ok (if x ∈ σ then s.locals x else s.globals x) s

/-- Gives a name a value where the variables `σ` are declared. -/
def store (σ : List String) (x : String) (v : Int64) : Eval Unit := fun s =>
  .ok () (if x ∈ σ then { s with locals := Function.update s.locals x v }
    else { s with globals := Function.update s.globals x v })

/-- A value that has to be there. -/
def need (x : Eval (Option Int64)) : Eval Int64 := do
  match ← x with
  | some v => pure v
  | none => throw .stuck

end Eval

/-! ### Operators and the library -/

/-- The value of an operator. -/
def ArithOp.apply (op : ArithOp) (a b : Int64) : Except Fault Int64 :=
  match op with
  | .add => .ok (a + b)
  | .sub => .ok (a - b)
  | .mul => .ok (a * b)
  | .div => if b = 0 then .error .divisionByZero else .ok (a / b)

/-- Whether a comparison holds. -/
def CompareOp.holds (op : CompareOp) (a b : Int64) : Bool :=
  match op with
  | .eq => a = b
  | .ne => a ≠ b
  | .lt => a < b
  | .gt => b < a
  | .le => a ≤ b
  | .ge => b ≤ a

namespace Outer

/-- Reads a value from the console. -/
def read : Outer (Option Int64) := fun w =>
  match w.console.read with
  | (.ok v, console) => .ok (some v) { w with console }
  | (.error e, console) => .error (.fault e) { w with console }

/-- Prints a text. -/
def print (text : String) : Outer (Option Int64) := fun w =>
  .ok none { w with console := w.console.write text }

end Outer

/-- The character of a code: a Unicode code point up to `0x10FFFF` that is not a surrogate. -/
def charOf? (code : Int) : Option Char :=
  if 0 ≤ code ∧ code < 0xD800 ∨ 0xDFFF < code ∧ code ≤ 0x10FFFF then some (Char.ofNat code.toNat) else none

/-- What a library function does, where `payload` gives the text of a global. -/
def LibraryFn.eval (payload : Int64 → Option String) : LibraryFn → List Int64 → Outer (Option Int64)
  | .getint, [] | .getchar, [] => Outer.read
  | .putint, [v] => Outer.print (toString v.toInt)
  | .putchar, [v] =>
    match charOf? v.toInt with
    | some c => Outer.print c.toString
    | none => throw (.fault (.invalidCharacter v))
  | .putstr, [v] =>
    match payload v with
    | some text => Outer.print text
    | none => throw (.fault (.notAString v))
  | .putln, [] => Outer.print "\n"
  | _, _ => throw .stuck

/-! ### Expressions -/

mutual

/-- The value of an expression where the variables `σ` are declared, behind `n` globals. -/
def Expr.eval (call : Callees) (σ : List String) (n : Nat) : Expr → Eval (Option Int64)
  | .hole _ | .cutOff _ _ | .double _ | .compare _ _ _ => throw .stuck
  | .uint value => pure (some value.toInt64)
  | .string _ => pure (some (Int64.ofNat n))
  | .char c => pure (some (Int64.ofNat c.toNat))
  | .load x => do return some (← Eval.load σ x.name)
  | .assign x e => do
    let v ← Eval.need (e.eval call σ n)
    Eval.store σ x.name v
    return none
  | .call x as => do
    let vs ← as.eval call σ n
    Eval.ofOuter (call x.name vs)
  | .paren e | .cast e _ => e.eval call σ n
  | .neg signs e => do
    let v ← Eval.need (e.eval call σ n)
    return some (Neg.neg^[signs] v)
  | .arith op lhs rhs => do
    let a ← Eval.need (lhs.eval call σ n)
    let b ← Eval.need (rhs.eval call σ (n + lhs.texts.length))
    match op.apply a b with
    | .ok v => return some v
    | .error e => throw (.fault e)

/-- The values of arguments. -/
def Args.eval (call : Callees) (σ : List String) (n : Nat) : Args → Eval (List Int64)
  | .close => pure []
  | .cutOff _ => throw .stuck
  | .arg e rest => do
    let v ← Eval.need (e.eval call σ n)
    let vs ← rest.eval call σ (n + e.texts.length)
    return v :: vs

end

/-- Whether a condition holds: a comparison, or a value that is not zero. -/
def Expr.holds (call : Callees) (σ : List String) (n : Nat) : Expr → Eval Bool
  | .paren e => e.holds call σ n
  | .compare op lhs rhs => do
    let a ← Eval.need (lhs.eval call σ n)
    let b ← Eval.need (rhs.eval call σ (n + lhs.texts.length))
    return op.holds a b
  | e => do return (← Eval.need (e.eval call σ n)) ≠ 0

/-! ### Statements -/

mutual

/-- The string literals of a statement, from left to right. -/
def Stmt.texts : Stmt → List String
  | .decl d => d.texts
  | .cond c => c.texts
  | .loop c body => c.texts ++ body.texts
  | .ret _ value => value.elim [] Expr.texts
  | .block b => b.texts
  | .empty => []
  | .expr e => e.texts

/-- The string literals of a block. -/
def Block.texts : Block → List String
  | .close | .cutOff _ => []
  | .stmt s rest => s.texts ++ rest.texts

/-- The string literals of a conditional statement. -/
def IfChain.texts : IfChain → List String
  | .mk c body otherwise => c.texts ++ body.texts ++ otherwise.texts

/-- The string literals of what follows a conditional block. -/
def Else.texts : Else → List String
  | .absent => []
  | .block b => b.texts
  | .chain c => c.texts

end

mutual

/-- The variables that are declared behind a statement, the newest first. -/
def Stmt.scope (σ : List String) : Stmt → List String
  | .decl d => d.name.name :: σ
  | .cond c => c.scope σ
  | .loop _ body => body.scope σ
  | .block b => b.scope σ
  | .ret _ _ | .empty | .expr _ => σ

/-- The variables that are declared behind a block. -/
def Block.scope (σ : List String) : Block → List String
  | .close | .cutOff _ => σ
  | .stmt s rest => rest.scope (s.scope σ)

/-- The variables that are declared behind a conditional statement. -/
def IfChain.scope (σ : List String) : IfChain → List String
  | .mk _ body otherwise => otherwise.scope (body.scope σ)

/-- The variables that are declared behind what follows a conditional block. -/
def Else.scope (σ : List String) : Else → List String
  | .absent => σ
  | .block b => b.scope σ
  | .chain c => c.scope σ

end

/-- How a statement ends. -/
inductive Flow where
  | next
  /-- The function returns, with a value if it has a result. -/
  | returned (value : Option Int64)

/-- Repeats a body as long as a test holds, at most as often as there is fuel. -/
def Eval.repeat (test : Eval Bool) (body : Eval Flow) : Nat → Eval Flow
  | 0 => throw .timeout
  | fuel + 1 => do
    if ← test then
      match ← body with
      | .next => Eval.repeat test body fuel
      | .returned v => return .returned v
    else return .next

mutual

/-- Executes a statement. -/
def Stmt.exec (call : Callees) (fuel : Nat) (σ : List String) (n : Nat) : Stmt → Eval Flow
  | .decl d =>
    match d.init with
    | none => return .next
    | some e => do
      let v ← Eval.need (e.eval call σ n)
      Eval.store (d.name.name :: σ) d.name.name v
      return .next
  | .cond c => c.exec call fuel σ n
  | .loop c body => Eval.repeat (c.holds call σ n) (body.exec call fuel σ (n + c.texts.length)) fuel
  | .ret _ none => return .returned none
  | .ret _ (some e) => do return .returned (some (← Eval.need (e.eval call σ n)))
  | .block b => b.exec call fuel σ n
  | .empty => return .next
  | .expr e => do
    let _ ← e.eval call σ n
    return .next

/-- Executes the statements of a block. -/
def Block.exec (call : Callees) (fuel : Nat) (σ : List String) (n : Nat) : Block → Eval Flow
  | .close => return .next
  | .cutOff _ => throw .stuck
  | .stmt s rest => do
    match ← s.exec call fuel σ n with
    | .next => rest.exec call fuel (s.scope σ) (n + s.texts.length)
    | .returned v => return .returned v

/-- Executes a conditional statement. -/
def IfChain.exec (call : Callees) (fuel : Nat) (σ : List String) (n : Nat) : IfChain → Eval Flow
  | .mk c body otherwise => do
    if ← c.holds call σ n then body.exec call fuel σ (n + c.texts.length)
    else otherwise.exec call fuel (body.scope σ) (n + c.texts.length + body.texts.length)

/-- Executes what follows a conditional block. -/
def Else.exec (call : Callees) (fuel : Nat) (σ : List String) (n : Nat) : Else → Eval Flow
  | .absent => return .next
  | .block b => b.exec call fuel σ n
  | .chain c => c.exec call fuel σ n

end

/-! ### Programs -/

namespace FnItem

/-- The variables that are declared where the body begins, the newest first. -/
def scope (f : FnItem) : List String :=
  (f.params.map (·.name.name)).reverse

/-- The values of the variables where the body begins. -/
def arguments (f : FnItem) (args : List Int64) (x : String) : Int64 :=
  (((f.params.map (·.name.name)).zip args).lookup x).getD 0

/-- The result of a body that ended. -/
def result (f : FnItem) : Flow → Option Int64
  | .returned (some v) => some v
  | _ => if f.ret = .int then some 0 else none

/-- Calls a function whose body stands behind `n` globals. -/
def eval (f : FnItem) (call : Callees) (fuel n : Nat) (args : List Int64) : Outer (Option Int64) := do
  if args.length = f.params.length then
    let flow ← Eval.toOuter (f.arguments args) (f.body.exec call fuel f.scope n)
    return f.result flow
  else throw .stuck

end FnItem

/-- A function that a program can call. -/
inductive Callee where
  | library (f : LibraryFn)
  /-- A function of the program, whose body stands behind `n` globals. -/
  | declared (f : FnItem) (n : Nat)

/-- The function with a given name, where the parts of a program stand behind `n` globals. -/
def Item.find? (name : String) (n : Nat) : List Item → Option (FnItem × Nat)
  | [] => none
  | .fn f :: rest =>
    if f.name.name = name then some (f, n) else Item.find? name (n + f.body.texts.length) rest
  | .decl g :: rest => Item.find? name (n + g.texts.length + 1) rest

/-- The function that a name stands for in a call. -/
def Program.callee? (p : Program) (name : String) : Option Callee :=
  match LibraryFn.all.find? (·.name = name) with
  | some f => some (.library f)
  | none => (Item.find? name 0 p.items).map fun (f, n) => .declared f n

/-- Calls the function with a given name. -/
def Program.call (p : Program) (payload : Int64 → Option String) : Nat → Callees
  | 0, _, _ => throw .timeout
  | fuel + 1, name, args =>
    match p.callee? name with
    | some (.library f) => f.eval payload args
    | some (.declared f n) => f.eval (p.call payload fuel) fuel n args
    | none => throw .stuck

/-- Gives global variables their values, where the parts of a program stand behind `n` globals. -/
def Item.init (call : Callees) (n : Nat) : List Item → Outer Unit
  | [] => pure ()
  | .fn f :: rest => Item.init call (n + f.body.texts.length) rest
  | .decl g :: rest => do
    if let some e := g.init then
      let v ← Eval.toOuter (fun _ => 0) (Eval.need (e.eval call [] n))
      modify fun w => { w with globals := Function.update w.globals g.name.name v }
    Item.init call (n + g.texts.length + 1) rest

/-- Runs a program. -/
def Program.eval (p : Program) (payload : Int64 → Option String) (fuel : Nat) : Outer (Option Int64) := do
  Item.init (p.call payload fuel) 0 p.items
  p.call payload fuel mainName []

end CZero
