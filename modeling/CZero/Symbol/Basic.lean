import CZero.Code.Instr
import CZero.Ty

/-!
# Symbols

A symbol is what a name stands for, or a string literal, which has no name but takes a global of its
own. A function's symbol also holds its code as far as it is compiled.
-/

namespace CZero

/-- Where a symbol lives. -/
inductive Slot where
  /-- A parameter, counted from 0. -/
  | arg (index : Nat)
  /-- A local variable, counted from 0 apart from the parameters. -/
  | loc (index : Nat)
  /-- A global, in the numbering that variables and string literals share. -/
  | glob (index : Nat)
  /-- A function, in the numbering that starts with the library. -/
  | fn (index : Nat)
deriving DecidableEq

/-- A slot as listings show it. -/
def Slot.text : Slot → String
  | .arg i => "Arg(" ++ toString i ++ ")"
  | .loc i => "Local(" ++ toString i ++ ")"
  | .glob i => "Global(" ++ toString i ++ ")"
  | .fn i => "Function(" ++ toString i ++ ")"

/-- A function under compilation. -/
structure FnInfo where
  index : Nat
  ret : Ty
  params : List (String × Ty)
  /-- The names of the local variables, in the order of their slots. -/
  locals : List String
  body : List Instr
  isLibrary : Bool
deriving DecidableEq

namespace FnInfo

/-- A function of a program without code. -/
def declared (index : Nat) (ret : Ty) (params : List (String × Ty)) : FnInfo :=
  ⟨index, ret, params, [], [], false⟩

/-- How many stack slots the result takes. -/
def returnSlots (f : FnInfo) : Nat :=
  f.ret.returnSlots

/-- The type of the function. -/
def signature (f : FnInfo) : Ty :=
  .func (f.params.map (·.2)) f.ret

/-- The place of a parameter among the parameters. -/
def paramIndex? (f : FnInfo) (name : String) : Option Nat :=
  f.params.findIdx? (·.1 == name)

/-- Reserves a slot for a local variable. -/
def addLocal (f : FnInfo) (name : String) : FnInfo :=
  { f with locals := f.locals ++ [name] }

/-- Appends an instruction. -/
def append (f : FnInfo) (i : Instr) : FnInfo :=
  { f with body := f.body ++ [i] }

/-- Inserts an instruction before place `position`, or at the end if there is no such place. -/
def insert (f : FnInfo) (i : Instr) (position : Nat) : FnInfo :=
  { f with body := f.body.take position ++ i :: f.body.drop position }

/-- Fills in the operand of the instruction at place `position`. -/
def setOperand (f : FnInfo) (position : Nat) (operand : Int64) : FnInfo :=
  { f with body := f.body.modify position fun i => { i with operand := some operand } }

end FnInfo

/-- What a symbol stands for. -/
inductive Meaning where
  /-- A variable, a constant or a parameter. -/
  | value
  | function (info : FnInfo)
  /-- A string literal. -/
  | literal
deriving DecidableEq

/-- A declared symbol. -/
structure Symbol where
  /-- The name, or the text of a string literal. -/
  name : String
  meaning : Meaning
  ty : Ty
  /-- How many scopes lay around the declaration; 0 is global. -/
  layer : Nat
  isConst : Bool
  /-- Whether a value was stored. -/
  isInit : Bool
  slot : Slot
deriving DecidableEq

namespace Symbol

/-- A variable without a value. -/
def ofVariable (name : String) (ty : Ty) (layer : Nat) (isConst : Bool) (slot : Slot) : Symbol :=
  ⟨name, .value, ty, layer, isConst, false, slot⟩

/-- A function; functions are global. -/
def ofFunction (name : String) (info : FnInfo) : Symbol :=
  ⟨name, .function info, info.signature, 0, true, true, .fn info.index⟩

/-- A string literal in the given global. -/
def ofLiteral (text : String) (slot : Nat) : Symbol :=
  ⟨text, .literal, .int, 0, true, true, .glob slot⟩

/-- The function, if the symbol is one. -/
def function? (s : Symbol) : Option FnInfo :=
  match s.meaning with
  | .function info => some info
  | _ => none

/-- Whether the symbol takes one of the globals that a program's code refers to. -/
def isGlobal (s : Symbol) : Bool :=
  s.layer == 0 && s.function?.isNone

/-- Whether the symbol is an integer variable or an integer constant. -/
def isIntVariable (s : Symbol) : Bool :=
  s.meaning == .value && s.ty == .int

/-- Changes the function that the symbol stands for. -/
def mapFunction (s : Symbol) (f : FnInfo → FnInfo) : Symbol :=
  match s.meaning with
  | .function info => { s with meaning := .function (f info) }
  | _ => s

end Symbol

end CZero
