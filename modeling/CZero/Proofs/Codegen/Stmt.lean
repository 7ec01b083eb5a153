import CZero.Proofs.Codegen.Expr

/-!
# The code of a statement

Jumps are computed from the lengths of the parts, so nothing is patched:

    if c A           cond c, br (|A| + 1), A, br 0
    if c A else B    cond c, br (|A| + 1), A, br (|B| + 1), B, br 0
    while c A        br 0, cond c, br (|A| + 1), A, br -(|cond c| + |A| + 2)

`cond c` is the code of `c`, followed by `brtrue 1` unless the code so far ends in a conditional branch.
If `c` has no code this looks at what was emitted before the condition. That, the names declared so
far, and the globals taken by string literals are what the statements before a point leave to it.
-/

namespace CZero

/-- What generation knows at a point of a function. -/
structure Point where
  env : Env
  /-- The local variables that have a slot, in the order of their slots. -/
  locals : List String
  /-- The globals so far. -/
  data : List Global
  /-- The operation emitted last. -/
  last : Option Opcode
deriving DecidableEq

namespace Point

/-- Behind some more code. -/
def emit (p : Point) (code : List Instr) : Point :=
  { p with last := (code.getLast?.map (·.opcode)).or p.last }

/-- Behind a jump. -/
def jump (p : Point) : Point :=
  { p with last := some .br }

/-- Behind some more string literals. -/
def literals (p : Point) (texts : List String) : Point :=
  { p with data := p.data ++ texts.map .ofText }

/-- With one more local variable that is not in scope yet. -/
def reserve (p : Point) (name : String) : Point :=
  { p with locals := p.locals ++ [name] }

/-- With one more variable in scope, in the innermost layer. Outside of functions it takes a global. -/
def declare (p : Point) (name : String) (slot : Slot) (ty : Ty) (isConst : Bool) : Point :=
  { p with
    env := { p.env with toNames := p.env.toNames.bind name (.var slot ty isConst) }
    data := p.data ++ if p.env.inner.isSome then [] else [.scalar isConst] }

end Point

/-- The jump over the next `n` instructions, or back over `-n` with itself the first of them. -/
def jumpBy (n : Int) : Instr :=
  .withOperand .br (Int64.ofInt n)

/-- The code of an expression, and what comes behind it. -/
def Expr.gen (p : Point) (e : Expr) : List Instr × Point :=
  let code := e.code p.env p.data.length
  (code, (p.literals e.texts).emit code)

/-- The code of arguments, and what comes behind it. -/
def Args.gen (p : Point) (as : Args) : List Instr × Point :=
  let code := as.code p.env p.data.length
  (code, (p.literals as.texts).emit code)

/-- The branch that ends a condition, unless the code so far ends in one. -/
def Point.test (p : Point) : List Instr :=
  if p.last.any Opcode.isConditional then [] else [.withOperand .brtrue 1]

/-- The code of a condition. -/
def Expr.genCond (p : Point) (e : Expr) : List Instr × Point :=
  let (code, q) := e.gen p
  (code ++ q.test, q.emit q.test)

/-- The code of a value that is stored at the address before it. -/
def Expr.genStore (p : Point) (address : List Instr) (e : Expr) : List Instr × Point :=
  let (code, q) := e.gen (p.emit address)
  (address ++ code ++ [.plain .store64], q.emit [.plain .store64])

/-- The type that a name stands for, in a program that keeps the static rules. -/
def Ident.ty (type : Ident) : Ty :=
  (Ty.ofName? type.name).getD .int

/-- The code of a local declaration. Its slot is reserved before its initial value and its name counts
only behind it. -/
def Decl.gen (p : Point) (d : Decl) : List Instr × Point :=
  let slot := p.locals.length
  let (code, q) := match d.init with
    | none => ([], p.reserve d.name.name)
    | some e => e.genStore (p.reserve d.name.name) (Slot.code 0 (.loc slot))
  (code, q.declare d.name.name (.loc slot) d.type.ty d.isConst)

/-- The string literals of a declaration. -/
def Decl.texts (d : Decl) : List String :=
  d.init.elim [] Expr.texts

/-- The code of a global declaration behind `n` globals. Its string literals come first, and the global
itself takes the slot behind them. -/
def Decl.globalCode (ρ : Env) (n : Nat) (d : Decl) : List Instr :=
  match d.init with
  | none => []
  | some e =>
    [.withOperand .globa (Int64.ofNat (n + d.texts.length))] ++ e.code ρ n ++ [.plain .store64]

/-- The code of a `return`. -/
def genRet (p : Point) : Option Expr → List Instr × Point
  | none => ([.plain .ret], p.emit [.plain .ret])
  | some e =>
    let (code, q) := e.genStore p [.withOperand .arga 0]
    (code ++ [.plain .ret], q.emit [.plain .ret])

/-- The code of a conditional statement from that of its parts. -/
def ifCode (test inside : List Instr) : Option (List Instr) → List Instr
  | none => test ++ [jumpBy (inside.length + 1)] ++ inside ++ [jumpBy 0]
  | some other =>
    test ++ [jumpBy (inside.length + 1)] ++ inside ++ [jumpBy (other.length + 1)] ++ other ++ [jumpBy 0]

/-- The code of a loop from that of its parts. -/
def loopCode (test inside : List Instr) : List Instr :=
  [jumpBy 0] ++ test ++ [jumpBy (inside.length + 1)] ++ inside
    ++ [jumpBy (-(test.length + inside.length + 2))]

mutual

/-- The code of a statement, and what comes behind it. -/
def Stmt.gen (p : Point) : Stmt → List Instr × Point
  | .decl d => d.gen p
  | .cond c => c.gen p
  | .loop c body =>
    let (test, q) := c.genCond p.jump
    let (inside, r) := body.gen q.jump
    (loopCode test inside, r.jump)
  | .ret _ value => genRet p value
  | .block b => b.gen p
  | .empty => ([], p)
  | .expr e => e.gen p

/-- The code of the statements of a block. -/
def Block.gen (p : Point) : Block → List Instr × Point
  | .close | .cutOff _ => ([], p)
  | .stmt s rest =>
    let (first, q) := s.gen p
    let (more, r) := rest.gen q
    (first ++ more, r)

/-- The code of a conditional statement. -/
def IfChain.gen (p : Point) : IfChain → List Instr × Point
  | .mk c body otherwise =>
    let (test, q) := c.genCond p
    let (inside, r) := body.gen q.jump
    let (other, s) := otherwise.gen r
    (ifCode test inside other, s.jump)

/-- The code of what follows a conditional block, if something does. -/
def Else.gen (p : Point) : Else → Option (List Instr) × Point
  | .absent => (none, p)
  | .block b =>
    let (code, q) := b.gen p.jump
    (some code, q)
  | .chain c =>
    let (code, q) := c.gen p.jump
    (some code, q)

end

/-! ### Static rules -/

/-- A type that a variable can have. -/
def Ident.IsStorable (type : Ident) : Prop :=
  ∃ ty, Ty.ofName? type.name = some ty ∧ ty.isStorable

/-- The initial value of a declaration can be stored, and the declaration is complete. -/
def Decl.Fits (ρ : Env) (d : Decl) : Prop :=
  d.cutOff = none ∧ d.type.IsStorable ∧ ∀ e ∈ d.init, ∃ ty, e.type? ρ = some ty ∧ ty ≠ .void

/-- The value of a `return` has the result type of the function. -/
def LegalRet (ρ : Env) : Option Expr → Prop
  | none => ρ.ret = .void
  | some e => e.type? ρ = some ρ.ret ∧ ρ.ret ≠ .void

mutual

/-- A statement keeps the static rules. -/
def Stmt.Legal (p : Point) : Stmt → Prop
  | .decl d => d.Fits p.env ∧ p.env.declares d.name.name = false
  | .cond c => c.Legal p
  | .loop c body =>
    (∃ ty, c.type? p.env = some ty) ∧ body.Legal (c.genCond p.jump).2.jump
  | .ret _ value => LegalRet p.env value
  | .block b => b.Legal p
  | .empty => True
  | .expr e => ∃ ty, e.type? p.env = some ty

/-- The statements of a block keep the static rules. -/
def Block.Legal (p : Point) : Block → Prop
  | .close => True
  | .cutOff _ => False
  | .stmt s rest => s.Legal p ∧ rest.Legal (s.gen p).2

/-- A conditional statement keeps the static rules. -/
def IfChain.Legal (p : Point) : IfChain → Prop
  | .mk c body otherwise =>
    (∃ ty, c.type? p.env = some ty) ∧ body.Legal (c.genCond p).2.jump ∧
      otherwise.Legal (body.gen (c.genCond p).2.jump).2

/-- What follows a conditional block keeps the static rules. -/
def Else.Legal (p : Point) : Else → Prop
  | .absent => True
  | .block b => b.Legal p.jump
  | .chain c => c.Legal p.jump

end

end CZero
