import CZero.Machine.Run

/-!
# Runs under a limit

No count exceeds the limit `2 ^ 64 - 1`, so a run under it may go on until the count comes round. Under all
other limits runs have results: they are those of `State.runFor`, which runs a program by recursion on the
number of steps that are left.
-/

namespace CZero

/-- The largest limit, which no run exceeds. -/
def Machine.noLimit : UInt64 :=
  18446744073709551615

namespace State

/-- Runs a program for at most `left` more steps after the first `steps`. -/
def runFor (m : Image) (s : State) (steps : UInt64) : Nat → Halt
  | 0 =>
    match s.fetch m s.frames with
    | (none, s) => ⟨.ok (), s, steps⟩
    | (some _, s) => ⟨.error (.stepLimitExceeded steps), s, steps + 1⟩
  | left + 1 =>
    match s.fetch m s.frames with
    | (none, s) => ⟨.ok (), s, steps⟩
    | (some i, s) =>
      match Action.perform m i s with
      | .ok () s => s.runFor m (steps + 1) left
      | .error e s => ⟨.error e, s, steps + 1⟩

variable {m : Image} {s : State} {limit steps : UInt64}

theorem not_noLimit_lt (n : UInt64) : ¬Machine.noLimit < n :=
  UInt64.not_lt.2 (UInt64.le_iff_toNat_le.2 (Nat.le_of_lt_succ n.toNat_lt))

theorem lt_noLimit (ne : limit ≠ Machine.noLimit) : limit < Machine.noLimit :=
  UInt64.lt_of_le_of_ne (UInt64.not_lt.1 (not_noLimit_lt limit)) ne

theorem toNat_succ (lt : steps < limit) : (steps + 1).toNat = steps.toNat + 1 := by
  have le := limit.toNat_lt
  rw [UInt64.lt_iff_toNat_lt] at lt
  rw [UInt64.toNat_add, UInt64.toNat_one]
  omega

theorem lt_succ (small : limit < Machine.noLimit) : limit < limit + 1 := by
  rw [UInt64.lt_iff_toNat_lt, toNat_succ small]
  exact Nat.lt_succ_self _

/-- A step that a limit allows can be counted. -/
theorem counts_of_lt (lt : steps < limit) : ¬limit < steps + 1 ∧ steps + 1 ≠ 0 := by
  have next := toNat_succ lt
  rw [UInt64.lt_iff_toNat_lt] at lt ⊢
  refine ⟨by omega, fun zero => ?_⟩
  rw [zero, UInt64.toNat_zero] at next
  omega

/-- Below the largest limit a run has a result. -/
theorem run_eq_runFor (small : limit < Machine.noLimit) {left : Nat} (sum : steps.toNat + left = limit.toNat) :
    s.run m limit steps = some (s.runFor m steps left) := by
  induction left generalizing s steps with
  | zero =>
    obtain rfl : steps = limit := UInt64.toNat_inj.1 sum
    rw [run, runFor]
    rcases s.fetch m s.frames with ⟨_ | i, t⟩
    · rfl
    · dsimp only
      rw [if_pos (lt_succ small)]
  | succ left ih =>
    have lt : steps < limit := UInt64.lt_iff_toNat_lt.2 (by omega)
    have next := toNat_succ lt
    obtain ⟨within, counts⟩ := counts_of_lt lt
    rw [run, runFor]
    rcases s.fetch m s.frames with ⟨_ | i, t⟩
    · rfl
    · dsimp only
      rw [if_neg within, if_neg counts]
      cases Action.perform m i t with
      | ok _ u => exact ih (by omega)
      | error e u => rfl

theorem eq_noLimit_of_run (h : s.run m limit 0 = none) : limit = Machine.noLimit := by
  by_cases eq : limit = Machine.noLimit
  · exact eq
  · cases (run_eq_runFor (lt_noLimit eq) (Nat.zero_add _)).symm.trans h

end State

namespace Machine

/-- Runs a program from its start for at most `left` steps. -/
def runFor (vm : Machine) (m : Image) (left : Nat) : Except Fault (Option Int64) × Machine :=
  let fresh := State.start m vm.state.console
  if m.functions.isEmpty then vm.after ⟨.error (.unknownFunction 0), { fresh with frames := [] }, 0⟩
  else vm.after (fresh.runFor m 0 left)

variable {vm : Machine} {m : Image}

theorem run_eq_runFor (small : vm.stepLimit < noLimit) (m : Image) :
    vm.run m = some (vm.runFor m vm.stepLimit.toNat) := by
  rw [run, runFor, State.run_eq_runFor small (Nat.zero_add _)]
  split <;> rfl

/-- A new machine allows a million steps. -/
theorem run_ofConsole (console : Console) (m : Image) :
    (ofConsole console).run m = some ((ofConsole console).runFor m 1000000) :=
  run_eq_runFor (show defaultStepLimit < noLimit by decide) m

end Machine

end CZero
