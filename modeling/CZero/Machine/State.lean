import CZero.Image.Basic
import CZero.Machine.Console

/-!
# The state of a machine

All values are 64-bit integers. They live on one stack and in the globals; an address below `2 ^ 40`
is a place on the stack, and from there on a global.

Each active function has a frame. Its part of the stack holds the result, then the parameters, then
the locals, and above them the values it works on.
-/

namespace CZero

/-- An active function. -/
structure Frame where
  /-- Its number among the functions of the image. -/
  function : Nat
  /-- The next instruction. -/
  pc : Nat
  /-- The place of its first slot on the stack. -/
  base : Nat
  retSlots : Nat
  paramSlots : Nat
deriving DecidableEq

namespace Frame

/-- The frame of a function that is about to start. -/
def enter (function base retSlots paramSlots : Nat) : Frame :=
  ⟨function, 0, base, retSlots, paramSlots⟩

/-- The address of an argument; the result slots are counted too. -/
def argAddress (f : Frame) (index : Nat) : Nat :=
  f.base + index

/-- The address of a local variable. -/
def localAddress (f : Frame) (index : Nat) : Nat :=
  f.base + f.retSlots + f.paramSlots + index

end Frame

/-- What a running program works on. -/
structure State where
  /-- The values, the top one last. -/
  stack : Array Int64
  globals : Array Int64
  /-- The active functions, the running one first. -/
  frames : List Frame
  console : Console
deriving DecidableEq

/-- A computation on the state that may end in a fault and then leaves the state as it was at that
moment. -/
abbrev Action (α : Type) : Type :=
  EStateM Fault State α

/-- The least address of a global. -/
def globalBase : Int64 :=
  0x10000000000

/-- A value as an index, if it is not negative. -/
def index? (v : Int64) : Option Nat :=
  if v < 0 then none else some v.toNatClampNeg

namespace State

/-- The state before the first instruction. -/
def start (image : Image) (console : Console) : State :=
  ⟨#[], Array.replicate image.globals.length 0, [.enter 0 0 0 0], console⟩

/-- What a function leaves of the stack: all up to its result slots. Only the last function to
return leaves its working values too. -/
def leave (f : Frame) (callers : List Frame) (stack : Array Int64) : Array Int64 :=
  if callers.isEmpty then stack else stack.shrink (f.base + f.retSlots)

end State

namespace Action

/-- Pushes a value. -/
def push (v : Int64) : Action Unit := fun s =>
  .ok () { s with stack := s.stack.push v }

/-- Pushes zeros. -/
def pushZeros (n : Nat) : Action Unit := fun s =>
  .ok () { s with stack := s.stack ++ Array.replicate n 0 }

/-- Takes the top value. -/
def pop : Action Int64 := fun s =>
  match s.stack.back? with
  | some v => .ok v { s with stack := s.stack.pop }
  | none => .error .stackUnderflow s

/-- Replaces the top value. -/
def setTop (v : Int64) : Action Unit := fun s =>
  if s.stack.isEmpty then .error .stackUnderflow s
  else .ok () { s with stack := s.stack.pop.push v }

/-- The running function. -/
def frame : Action Frame := fun s =>
  match s.frames with
  | f :: _ => .ok f s
  | [] => .error .stackUnderflow s

/-- The value at an address. -/
def load (address : Int64) : Action Int64 := fun s =>
  let found :=
    if globalBase ≤ address then (index? (address - globalBase)).bind (s.globals[·]?)
    else (index? address).bind (s.stack[·]?)
  match found with
  | some v => .ok v s
  | none => .error (.invalidAddress address) s

/-- Stores a value at an address. -/
def store (address value : Int64) : Action Unit := fun s =>
  if globalBase ≤ address then
    match index? (address - globalBase) with
    | some i =>
      if h : i < s.globals.size then .ok () { s with globals := s.globals.set i value }
      else .error (.invalidAddress address) s
    | none => .error (.invalidAddress address) s
  else
    match index? address with
    | some i =>
      if h : i < s.stack.size then .ok () { s with stack := s.stack.set i value }
      else .error (.invalidAddress address) s
    | none => .error (.invalidAddress address) s

/-- Reads a value from the console. -/
def read : Action Int64 := fun s =>
  match s.console.read with
  | (.ok v, console) => .ok v { s with console }
  | (.error e, console) => .error e { s with console }

/-- Prints a text. -/
def write (text : String) : Action Unit := fun s =>
  .ok () { s with console := s.console.write text }

end Action

end CZero
