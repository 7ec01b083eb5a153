import CZero.Machine.Step

/-!
# Running a program

A run starts in function 0 and ends when that function returns, when an instruction faults, or when
the program wants more steps than it is allowed. Every instruction is one step. A function whose code
is used up returns by itself, and that is no step.

Steps are counted in 64 bits. Behind `2 ^ 64 - 1` the count comes round to 0, so no run exceeds this
limit. A run that counts so far is not followed any further, and has no result.
-/

namespace CZero

namespace State

/-- Returns from every function whose code is used up, and takes the next instruction of the function
that is running then. There is none once all functions have returned. -/
def fetch (m : Image) (s : State) : List Frame → Option Instr × State
  | [] => (none, { s with frames := [] })
  | f :: callers =>
    match m.instr? f.function f.pc with
    | some i => (some i, { s with frames := { f with pc := f.pc + 1 } :: callers })
    | none => fetch m { s with stack := leave f callers s.stack } callers

end State

/-- How a run ended. -/
structure Halt where
  outcome : Except Fault Unit
  state : State
  steps : UInt64

/-- A count that does not come round has less left to count. -/
theorem size_sub_succ_lt {steps : UInt64} (h : ¬steps + 1 = 0) :
    UInt64.size - (steps + 1).toNat < UInt64.size - steps.toNat := by
  have lt := steps.toNat_lt
  rw [← UInt64.toNat_inj, UInt64.toNat_add, UInt64.toNat_one, UInt64.toNat_zero] at h
  rw [UInt64.toNat_add, UInt64.toNat_one, UInt64.size]
  omega

/-- Runs a program after its first `steps` steps. The step that is one too many is counted and
fetched, but not executed. -/
def State.run (m : Image) (limit : UInt64) (s : State) (steps : UInt64) : Option Halt :=
  match s.fetch m s.frames with
  | (none, s) => some ⟨.ok (), s, steps⟩
  | (some i, s) =>
    if limit < steps + 1 then some ⟨.error (.stepLimitExceeded limit), s, steps + 1⟩
    else if steps + 1 = 0 then none
    else
      match Action.perform m i s with
      | .ok () s => s.run m limit (steps + 1)
      | .error e s => some ⟨.error e, s, steps + 1⟩
termination_by UInt64.size - steps.toNat
decreasing_by exact size_sub_succ_lt ‹_›

/-- A machine: the state of its last run, the number of steps that took, and how many it allows. -/
structure Machine where
  state : State
  steps : UInt64
  stepLimit : UInt64

namespace Machine

/-- The number of steps that a machine allows unless it is told otherwise. -/
def defaultStepLimit : UInt64 := 1000000

/-- A machine that has not run anything. -/
def ofConsole (console : Console) : Machine :=
  ⟨⟨#[], #[], [], console⟩, 0, defaultStepLimit⟩

/-- The same machine with another limit. -/
def withStepLimit (vm : Machine) (limit : UInt64) : Machine :=
  { vm with stepLimit := limit }

/-- What a machine shows of a run that has ended: the value on top of the stack, and its state. -/
def after (vm : Machine) (halt : Halt) : Except Fault (Option Int64) × Machine :=
  (halt.outcome.map fun _ => halt.state.stack.back?,
    { vm with state := halt.state, steps := halt.steps })

/-- Runs a program from its start, keeping only the console of the machine. -/
def run (vm : Machine) (m : Image) : Option (Except Fault (Option Int64) × Machine) :=
  let fresh := State.start m vm.state.console
  if m.functions.isEmpty then some (vm.after ⟨.error (.unknownFunction 0), { fresh with frames := [] }, 0⟩)
  else (fresh.run m vm.stepLimit 0).map vm.after

/-- Everything that was printed. -/
def output (vm : Machine) : String :=
  vm.state.console.output

/-- Takes the output away. -/
def takeOutput (vm : Machine) : String × Machine :=
  let (text, console) := vm.state.console.takeOutput
  (text, { vm with state := { vm.state with console } })

/-- The value of a global after a run. -/
def global? (vm : Machine) (slot : Nat) : Option Int64 :=
  vm.state.globals[slot]?

/-- How many functions are active. -/
def depth (vm : Machine) : Nat :=
  vm.state.frames.length

end Machine

end CZero
