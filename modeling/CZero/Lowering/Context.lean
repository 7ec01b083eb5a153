import CZero.Symbol.Table
import CZero.Tree.Basic

/-!
# The context of lowering

Lowering walks a tree once, from left to right. It declares symbols, checks the static rules, and
appends instructions to the function it is in. The first fault ends it.
-/

namespace CZero

/-- What lowering knows at one point of a program. -/
structure Context where
  table : Table
  /-- The function that code is appended to. -/
  current : Nat
  /-- The function named `main`, once it is declared. -/
  main : Option Nat
deriving DecidableEq

/-- A part of lowering. -/
abbrev Lower (α : Type) : Type :=
  StateT Context (Except Diagnostic) α

namespace Lower

/-- Reports a fault at a place in the source. -/
def fail {α : Type} (cause : Cause) (position : Position) : Lower α :=
  throw ⟨cause, position⟩

/-- Changes the table; a fault is reported at `position`. -/
def update {α : Type} (position : Position) (f : Table → Except Cause (α × Table)) : Lower α := do
  let context ← get
  match f context.table with
  | .ok (a, table) =>
    set { context with table }
    return a
  | .error cause => fail cause position

/-- Asks the table about the current function. Such a question cannot fail for a reason that lies in
the source, so its fault has no place there. -/
def ask {α : Type} (f : Table → Nat → Except Cause α) : Lower α := do
  let context ← get
  update .nowhere fun t => do return (← f t context.current, t)

/-- Changes the current function. -/
def edit {α : Type} (f : Table → Nat → Except Cause (α × Table)) : Lower α := do
  let context ← get
  update .nowhere (f · context.current)

/-- Appends an instruction without an operand. -/
def emit (op : Opcode) : Lower Unit := do
  let _ ← edit (·.append · (.plain op))

/-- Appends an instruction with an operand. -/
def emitWith (op : Opcode) (operand : Int64) : Lower Unit := do
  let _ ← edit (·.append · (.withOperand op operand))

/-- Appends an instruction whose operand is not known yet. -/
def placeholder (op : Opcode) : Lower Site :=
  edit (·.placeholder · op)

/-- Fills in an operand. -/
def patch (site : Site) (operand : Int64) : Lower Unit :=
  update .nowhere fun t => do return ((), ← t.patch site operand)

/-- The place of the next instruction. -/
def here : Lower Nat :=
  ask (·.instrCount ·)

/-- How far a jump at place `site` has to go to reach place `target`. -/
def distance (site target : Nat) : Int64 :=
  Int64.ofInt ((target : Int) - (site + 1))

/-- Makes a jump lead to place `target`. -/
def patchJump (site : Site) (target : Nat) : Lower Unit :=
  patch site (distance site.position target)

/-- Declares a symbol under the given name. -/
def declare (name : Ident) (s : Symbol) : Lower Unit := do
  let _ ← update name.start (·.declare s)

/-- What a name stands for, with the number of its symbol. -/
def resolve (name : Ident) : Lower (Nat × Symbol) :=
  update name.start fun t => do
    let id ← t.lookup name.name
    match t.get? id with
    | some s => return ((id, s), t)
    | none => throw (.notDeclared name.name)

/-- The type of a variable, a constant or a parameter. -/
def valueType (name type : Ident) : Lower Ty :=
  match Ty.ofName? type.name with
  | some ty => if ty.isStorable then return ty else fail .invalidAssignment name.start
  | none => fail .invalidAssignment name.start

/-- The type of a result or of a cast. -/
def resultType (type : Ident) : Lower Ty :=
  match Ty.ofName? type.name with
  | some ty => return ty
  | none => fail (.unknownType type.name) type.start

end Lower

end CZero
