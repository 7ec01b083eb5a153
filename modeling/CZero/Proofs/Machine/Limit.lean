import CZero.Proofs.Machine.Bounded
import CZero.Proofs.Machine.Faults

/-!
# The step limit

What a run does is a sequence of instructions, each executed in some state: `State.dispatched? m s n` is
the one that follows `n` others. `State.Halts m s n o t` says that the sequence has `n` members and how the
run then ends by itself.

    dispatched? 0    dispatched? 1    ...    dispatched? (n - 1)    Halts
         |                |                          |                |
      limit 0          limit 1              limit (n - 1)      limit n, n + 1, ...

A limit does no more than to cut this sequence off. Main statement (`Machine.run_truncates`): a run that is
allowed too few steps ends in the state in which its next instruction would have been executed, and all
limits from `n` on give the same run. The limit `2 ^ 64 - 1` cuts nothing off: under it a run has a result
only if it ends by itself.
-/

namespace CZero

namespace State

/-- The instruction that a run from `s` executes after `n` others, and the state that it is executed in.
There is none if the run ends before that. -/
def dispatched? (m : Image) (s : State) : Nat → Option (Instr × State)
  | 0 =>
    match s.fetch m s.frames with
    | (some i, t) => some (i, t)
    | (none, _) => none
  | n + 1 =>
    match s.fetch m s.frames with
    | (some i, t) =>
      match Action.perform m i t with
      | .ok () u => u.dispatched? m n
      | .error _ _ => none
    | (none, _) => none

/-- A run from `s` ends by itself after `n` instructions, with this outcome and in this state. -/
inductive Halts (m : Image) : State → Nat → Except Fault Unit → State → Prop
  /-- All functions have returned. -/
  | done {s t} : s.fetch m s.frames = (none, t) → Halts m s 0 (.ok ()) t
  /-- An instruction fails. -/
  | fault {s t u i e} : s.fetch m s.frames = (some i, t) → Action.perform m i t = .error e u →
    Halts m s 1 (.error e) u
  /-- An instruction is executed, and the run goes on. -/
  | step {s t u v i n o} : s.fetch m s.frames = (some i, t) → Action.perform m i t = .ok () u →
    Halts m u n o v → Halts m s (n + 1) o v

/-- An instruction of the running function was fetched: the function already points behind it. -/
def HasFetched (m : Image) (i : Instr) (t : State) : Prop :=
  ∃ (f : Frame) (callers : List Frame), t.frames = { f with pc := f.pc + 1 } :: callers ∧
    m.instr? f.function f.pc = some i

/-- Goes on with an instruction that was fetched after `steps` others. -/
def resume (m : Image) (limit : UInt64) (i : Instr) (t : State) (steps : UInt64) : Option Halt :=
  match Action.perform m i t with
  | .ok () u => u.run m limit (steps + 1)
  | .error e u => some ⟨.error e, u, steps + 1⟩

variable {m : Image} {s t u : State} {i : Instr} {n k : Nat} {o : Except Fault Unit} {limit steps : UInt64}

/-- The first of the steps that a limit allows. -/
theorem next_of_le (le : steps.toNat + (n + 1) ≤ limit.toNat) :
    steps < limit ∧ (steps + 1).toNat + n ≤ limit.toNat := by
  have lt : steps < limit := UInt64.lt_iff_toNat_lt.2 (by omega)
  have next := toNat_succ lt
  exact ⟨lt, by omega⟩

/-! ### One instruction -/

theorem hasFetched_of_fetch {frames : List Frame} (h : s.fetch m frames = (some i, t)) :
    t.HasFetched m i := by
  induction frames generalizing s with
  | nil => cases h
  | cons f callers ih =>
    rw [fetch] at h
    split at h
    · next found =>
      cases h
      exact ⟨f, callers, rfl, found⟩
    · exact ih h

theorem run_of_fetch_none (h : s.fetch m s.frames = (none, t)) (limit steps : UInt64) :
    s.run m limit steps = some ⟨.ok (), t, steps⟩ := by
  rw [run, h]

theorem run_of_lt (h : s.fetch m s.frames = (some i, t)) (exceeds : limit < steps + 1) :
    s.run m limit steps = some ⟨.error (.stepLimitExceeded limit), t, steps + 1⟩ := by
  rw [run, h]
  exact if_pos exceeds

theorem run_of_eq_zero (h : s.fetch m s.frames = (some i, t)) (within : ¬limit < steps + 1)
    (round : steps + 1 = 0) : s.run m limit steps = none := by
  rw [run, h]
  dsimp only
  rw [if_neg within, if_pos round]

theorem run_of_ne_zero (h : s.fetch m s.frames = (some i, t)) (within : ¬limit < steps + 1)
    (counts : steps + 1 ≠ 0) : s.run m limit steps = t.resume m limit i steps := by
  rw [run, h]
  dsimp only
  rw [if_neg within, if_neg counts]
  rfl

theorem run_of_allowed (h : s.fetch m s.frames = (some i, t)) (lt : steps < limit) :
    s.run m limit steps = t.resume m limit i steps :=
  run_of_ne_zero h (counts_of_lt lt).1 (counts_of_lt lt).2

theorem resume_of_ok (h : Action.perform m i t = .ok () u) (limit steps : UInt64) :
    t.resume m limit i steps = u.run m limit (steps + 1) := by
  rw [resume, h]

theorem resume_of_error {e : Fault} (h : Action.perform m i t = .error e u) (limit steps : UInt64) :
    t.resume m limit i steps = some ⟨.error e, u, steps + 1⟩ := by
  rw [resume, h]

theorem dispatched?_zero_of_fetch (h : s.fetch m s.frames = (some i, t)) :
    s.dispatched? m 0 = some (i, t) := by
  rw [dispatched?, h]

theorem dispatched?_succ_of_ok (h : s.fetch m s.frames = (some i, t))
    (ht : Action.perform m i t = .ok () u) (n : Nat) : s.dispatched? m (n + 1) = u.dispatched? m n := by
  rw [dispatched?, h]
  simp only [ht]

/-- What comes first in a sequence with more than one member. -/
theorem exists_of_dispatched?_succ {x : Instr × State} (h : s.dispatched? m (n + 1) = some x) :
    ∃ i t u, s.fetch m s.frames = (some i, t) ∧ Action.perform m i t = .ok () u ∧
      u.dispatched? m n = some x := by
  rw [dispatched?] at h
  split at h
  · next fetched =>
    split at h
    · exact ⟨_, _, _, fetched, ‹_›, h⟩
    · cases h
  · cases h

/-! ### Runs -/

theorem hasFetched_of_dispatched? (h : s.dispatched? m n = some (i, t)) : t.HasFetched m i := by
  induction n generalizing s with
  | zero =>
    rw [dispatched?] at h
    split at h
    · next fetched =>
      cases h
      exact hasFetched_of_fetch fetched
    · cases h
  | succ n ih =>
    obtain ⟨-, -, u, -, -, rest⟩ := exists_of_dispatched?_succ h
    exact ih rest

theorem add_ofNat_succ (steps : UInt64) (n : Nat) : steps + 1 + .ofNat n = steps + .ofNat (n + 1) := by
  rw [Nat.add_comm, UInt64.ofNat_add, UInt64.add_assoc]
  rfl

/-- A run that is allowed `n` steps ends where its next instruction would be executed. Under the largest
limit the count comes round there. -/
theorem run_of_dispatched? (h : s.dispatched? m n = some (i, t)) (sum : steps.toNat + n = limit.toNat) :
    s.run m limit steps =
      if limit < Machine.noLimit then some ⟨.error (.stepLimitExceeded limit), t, limit + 1⟩ else none := by
  induction n generalizing s steps with
  | zero =>
    obtain rfl : steps = limit := UInt64.toNat_inj.1 sum
    rw [dispatched?] at h
    split at h
    · next fetched =>
      cases h
      split
      · next small => exact run_of_lt fetched (lt_succ small)
      · next largest =>
        obtain rfl : steps = Machine.noLimit := Decidable.byContradiction fun ne => largest (lt_noLimit ne)
        exact run_of_eq_zero fetched (not_noLimit_lt _) rfl
    · cases h
  | succ n ih =>
    obtain ⟨j, v, u, fetched, executed, rest⟩ := exists_of_dispatched?_succ h
    obtain ⟨lt, -⟩ := next_of_le (Nat.le_of_eq sum)
    have next := toNat_succ lt
    rw [run_of_allowed fetched lt, resume_of_ok executed, ih rest (by omega)]

/-- A run that is allowed more goes on with that instruction. -/
theorem run_eq_resume (h : s.dispatched? m n = some (i, t)) (le : steps.toNat + (n + 1) ≤ limit.toNat) :
    s.run m limit steps = t.resume m limit i (steps + .ofNat n) := by
  induction n generalizing s steps with
  | zero =>
    rw [dispatched?] at h
    split at h
    · next fetched =>
      cases h
      simp [run_of_allowed fetched (next_of_le le).1]
    · cases h
  | succ n ih =>
    obtain ⟨j, v, u, fetched, executed, rest⟩ := exists_of_dispatched?_succ h
    obtain ⟨lt, more⟩ := next_of_le le
    rw [run_of_allowed fetched lt, resume_of_ok executed, ih rest more, add_ofNat_succ]

/-- A run that ends by itself does so under all limits that allow its steps. -/
theorem Halts.run_eq (h : Halts m s n o t) (le : steps.toNat + n ≤ limit.toNat) :
    s.run m limit steps = some ⟨o, t, steps + .ofNat n⟩ := by
  induction h generalizing steps with
  | done fetched => simp [run_of_fetch_none fetched]
  | fault fetched failed =>
    rw [run_of_allowed fetched (next_of_le le).1, resume_of_error failed]
    rfl
  | step fetched executed _ ih =>
    obtain ⟨lt, more⟩ := next_of_le le
    rw [run_of_allowed fetched lt, resume_of_ok executed, ih more, add_ofNat_succ]

/-- It executes as many instructions as it counts. -/
theorem Halts.exists_dispatched? (h : Halts m s n o t) (lt : k < n) :
    ∃ i u, s.dispatched? m k = some (i, u) := by
  induction h generalizing k with
  | done => cases lt
  | fault fetched =>
    obtain rfl : k = 0 := by omega
    exact ⟨_, _, dispatched?_zero_of_fetch fetched⟩
  | step fetched executed _ ih =>
    cases k with
    | zero => exact ⟨_, _, dispatched?_zero_of_fetch fetched⟩
    | succ k =>
      rw [dispatched?_succ_of_ok fetched executed]
      exact ih (Nat.lt_of_succ_lt_succ lt)

/-- It executes no more. -/
theorem Halts.dispatched?_eq_none (h : Halts m s n o t) : s.dispatched? m n = none := by
  induction h with
  | done fetched => rw [dispatched?, fetched]
  | fault fetched failed =>
    rw [dispatched?, fetched]
    simp only [failed]
  | step fetched executed _ ih => rw [dispatched?_succ_of_ok fetched executed, ih]

/-- It does not end at a limit, because no instruction raises that fault. -/
theorem Halts.ne_limit (h : Halts m s n o t) (limit : UInt64) : o ≠ .error (.stepLimitExceeded limit) := by
  induction h with
  | done => exact nofun
  | step _ _ _ ih => exact ih
  | fault _ failed =>
    rintro ⟨⟩
    exact (Action.fails_perform m _ failed).1

/-- If it ends with a fault, its last instruction has raised it. -/
theorem Halts.exists_raised {e : Fault} (h : Halts m s n (.error e) t) :
    ∃ k i u, n = k + 1 ∧ s.dispatched? m k = some (i, u) ∧ Action.perform m i u = .error e t := by
  generalize eq : Except.error e = o at h
  induction h with
  | done => cases eq
  | fault fetched failed =>
    cases eq
    exact ⟨0, _, _, rfl, dispatched?_zero_of_fetch fetched, failed⟩
  | step fetched executed _ ih =>
    obtain ⟨k, i, u, rfl, dispatched, failed⟩ := ih eq
    exact ⟨k + 1, i, u, rfl, by rwa [dispatched?_succ_of_ok fetched executed], failed⟩

/-- A run ends by itself within its limit, or has one more instruction to execute. -/
theorem halts_or_dispatched? (m : Image) (s : State) (limit : Nat) :
    (∃ n o t, n ≤ limit ∧ Halts m s n o t) ∨ ∃ i t, s.dispatched? m limit = some (i, t) := by
  induction limit generalizing s with
  | zero =>
    cases fetched : s.fetch m s.frames with
    | mk next t =>
      cases next with
      | none => exact .inl ⟨0, _, t, Nat.le_refl 0, .done fetched⟩
      | some i => exact .inr ⟨i, t, dispatched?_zero_of_fetch fetched⟩
  | succ limit ih =>
    cases fetched : s.fetch m s.frames with
    | mk next t =>
      cases next with
      | none => exact .inl ⟨0, _, t, Nat.zero_le _, .done fetched⟩
      | some i =>
        cases executed : Action.perform m i t with
        | error e u => exact .inl ⟨1, _, u, Nat.le_add_left 1 limit, .fault fetched executed⟩
        | ok a u =>
          rw [dispatched?_succ_of_ok fetched executed]
          obtain ⟨n, o, v, le, halts⟩ | more := ih u
          · exact .inl ⟨n + 1, o, v, Nat.succ_le_succ le, .step fetched executed halts⟩
          · exact .inr more

/-- A run that has a result ended by itself or exceeded its limit. -/
theorem halts_or_exceeds {halt : Halt} (h : s.run m limit 0 = some halt) :
    (∃ n, Halts m s n halt.outcome halt.state ∧ halt.steps = .ofNat n) ∨
      limit < Machine.noLimit ∧ halt.outcome = .error (.stepLimitExceeded limit) := by
  obtain ⟨n, o, t, le, halts⟩ | ⟨i, t, next⟩ := halts_or_dispatched? m s limit.toNat
  · have within : (0 : UInt64).toNat + n ≤ limit.toNat := by rwa [UInt64.toNat_zero, Nat.zero_add]
    cases (halts.run_eq within).symm.trans h
    exact .inl ⟨n, halts, UInt64.zero_add _⟩
  · rw [run_of_dispatched? next (Nat.zero_add _)] at h
    split at h
    · next small =>
      cases h
      exact .inr ⟨small, rfl⟩
    · cases h

end State

namespace Machine

variable {m : Image} {vm : Machine}

/-- Only the console and the limit of a machine matter to a run. -/
theorem run_congr {other : Machine} (console : other.state.console = vm.state.console)
    (limit : other.stepLimit = vm.stepLimit) (m : Image) : other.run m = vm.run m := by
  obtain ⟨⟨stack, globals, frames, c⟩, steps, l⟩ := other
  cases console
  cases limit
  rfl

theorem run_of_isEmpty (h : m.functions.isEmpty) (vm : Machine) :
    vm.run m = some (.error (.unknownFunction 0),
      ⟨{ State.start m vm.state.console with frames := [] }, 0, vm.stepLimit⟩) := by
  rw [run]
  exact if_pos h

theorem run_of_nonempty (h : ¬m.functions.isEmpty) (vm : Machine) :
    vm.run m = ((State.start m vm.state.console).run m vm.stepLimit 0).map vm.after := by
  rw [run, if_neg h]

/-- A machine executes this instruction in this state after `n` others, if its limit allows that. -/
structure Dispatches (vm : Machine) (m : Image) (n : Nat) (i : Instr) (t : State) : Prop where
  nonempty : ¬m.functions.isEmpty
  dispatched : (State.start m vm.state.console).dispatched? m n = some (i, t)
  fetched : t.HasFetched m i
  resumes : ∀ limit : UInt64, n < limit.toNat →
    (State.start m vm.state.console).run m limit 0 = t.resume m limit i (.ofNat n)

theorem dispatches_of_dispatched? (vm : Machine) {n : Nat} {i : Instr} {t : State} (h : ¬m.functions.isEmpty)
    (eq : (State.start m vm.state.console).dispatched? m n = some (i, t)) : vm.Dispatches m n i t where
  nonempty := h
  dispatched := eq
  fetched := State.hasFetched_of_dispatched? eq
  resumes limit lt := by
    have within : (0 : UInt64).toNat + (n + 1) ≤ limit.toNat := by
      rw [UInt64.toNat_zero]
      omega
    rw [State.run_eq_resume eq within, UInt64.zero_add]

/-- With a limit of that many steps the machine goes no further. -/
theorem Dispatches.run_eq_ite {limit : UInt64} {i : Instr} {t : State} (h : vm.Dispatches m limit.toNat i t) :
    (vm.withStepLimit limit).run m =
      if limit < noLimit then some (.error (.stepLimitExceeded limit), ⟨t, limit + 1, limit⟩) else none := by
  have sum : (0 : UInt64).toNat + limit.toNat = limit.toNat := Nat.zero_add _
  rw [run_of_nonempty h.nonempty]
  refine (congrArg (Option.map _) (State.run_of_dispatched? h.dispatched sum)).trans ?_
  split <;> rfl

theorem Dispatches.run_eq {limit : UInt64} {i : Instr} {t : State} (h : vm.Dispatches m limit.toNat i t)
    (small : limit < noLimit) :
    (vm.withStepLimit limit).run m = some (.error (.stepLimitExceeded limit), ⟨t, limit + 1, limit⟩) := by
  rw [h.run_eq_ite, if_pos small]

theorem Dispatches.run_eq_none {i : Instr} {t : State} (h : vm.Dispatches m noLimit.toNat i t) :
    (vm.withStepLimit noLimit).run m = none := by
  rw [h.run_eq_ite, if_neg (State.not_noLimit_lt _)]

/-- A machine ends by itself after `n` steps, with this result and in this state. -/
structure Finishes (vm : Machine) (m : Image) (n : Nat) (result : Except Fault (Option Int64)) (t : State) :
    Prop where
  ne_limit : ∀ limit, result ≠ .error (.stepLimitExceeded limit)
  run_eq : ∀ limit : UInt64, n ≤ limit.toNat →
    (vm.withStepLimit limit).run m = some (result, ⟨t, .ofNat n, limit⟩)
  dispatches : ∀ k, k < n → ∃ i u, vm.Dispatches m k i u
  stops : ∀ i u, ¬vm.Dispatches m n i u

theorem finishes_of_isEmpty (h : m.functions.isEmpty) (vm : Machine) :
    vm.Finishes m 0 (.error (.unknownFunction 0)) { State.start m vm.state.console with frames := [] } where
  ne_limit := nofun
  run_eq limit _ := run_of_isEmpty h (vm.withStepLimit limit)
  dispatches := nofun
  stops _ _ next := next.nonempty h

theorem finishes_of_halts (vm : Machine) {n : Nat} {o : Except Fault Unit} {t : State}
    (h : ¬m.functions.isEmpty)
    (halts : State.Halts m (.start m vm.state.console) n o t) :
    vm.Finishes m n (o.map fun _ => t.stack.back?) t where
  ne_limit limit := by
    cases o with
    | ok => exact nofun
    | error e =>
      rintro ⟨⟩
      exact halts.ne_limit limit rfl
  run_eq limit le := by
    have within : (0 : UInt64).toNat + n ≤ limit.toNat := by rwa [UInt64.toNat_zero, Nat.zero_add]
    have ends := halts.run_eq within
    rw [UInt64.zero_add] at ends
    rw [run_of_nonempty h]
    exact congrArg (Option.map _) ends
  dispatches k lt := by
    obtain ⟨i, u, eq⟩ := halts.exists_dispatched? lt
    exact ⟨i, u, vm.dispatches_of_dispatched? h eq⟩
  stops _ _ next := nomatch halts.dispatched?_eq_none.symm.trans next.dispatched

/-- A machine finishes within its limit, or has one more instruction to execute. -/
theorem finishes_or_dispatches (vm : Machine) (m : Image) (limit : Nat) :
    (∃ n result t, n ≤ limit ∧ vm.Finishes m n result t) ∨ ∃ i t, vm.Dispatches m limit i t := by
  by_cases h : m.functions.isEmpty
  · exact .inl ⟨0, _, _, Nat.zero_le _, finishes_of_isEmpty h vm⟩
  · obtain ⟨n, o, t, le, halts⟩ | ⟨i, t, eq⟩ := State.halts_or_dispatched? m (.start m vm.state.console) limit
    · exact .inl ⟨n, _, t, le, vm.finishes_of_halts h halts⟩
    · exact .inr ⟨i, t, vm.dispatches_of_dispatched? h eq⟩

/-- A run that has a result has finished or exceeded its limit. -/
theorem finishes_or_exceeds {result : Except Fault (Option Int64)} {last : Machine}
    (h : vm.run m = some (result, last)) :
    (∃ n, vm.Finishes m n result last.state ∧ last = ⟨last.state, .ofNat n, vm.stepLimit⟩) ∨
      vm.stepLimit < noLimit ∧ result = .error (.stepLimitExceeded vm.stepLimit) := by
  by_cases empty : m.functions.isEmpty
  · cases (run_of_isEmpty empty vm).symm.trans h
    exact .inl ⟨0, finishes_of_isEmpty empty vm, rfl⟩
  · rw [run_of_nonempty empty] at h
    obtain ⟨halt, run, eq⟩ := Option.map_eq_some_iff.1 h
    cases eq
    obtain ⟨n, halts, count⟩ | ⟨small, exceeds⟩ := State.halts_or_exceeds run
    · exact .inl ⟨n, vm.finishes_of_halts empty halts, by rw [← count]⟩
    · exact .inr ⟨small, by rw [exceeds]; rfl⟩

/-- A run ends with a fault that this instruction raises in this state. -/
def Raises (vm : Machine) (m : Image) (e : Fault) (i : Instr) (t : State) : Prop :=
  ∃ n u, vm.Dispatches m n i t ∧ Action.perform m i t = .error e u ∧
    vm.run m = some (.error e, ⟨u, .ofNat (n + 1), vm.stepLimit⟩)

/-- Every fault but that of the limit is raised by an instruction, in an image that has functions. -/
theorem exists_raises {e : Fault} {last : Machine} (nonempty : ¬m.functions.isEmpty)
    (h : vm.run m = some (.error e, last)) (ne_limit : ∀ limit, e ≠ .stepLimitExceeded limit) :
    ∃ i t, vm.Raises m e i t := by
  have run := h
  rw [run_of_nonempty nonempty] at run
  obtain ⟨⟨outcome, u, steps⟩, eq, after⟩ := Option.map_eq_some_iff.1 run
  cases outcome with
  | ok => cases after
  | error e =>
    cases after
    obtain ⟨n, halts, count⟩ | ⟨-, exceeds⟩ := State.halts_or_exceeds eq
    · obtain ⟨k, i, t, rfl, dispatched, failed⟩ := halts.exists_raised
      exact ⟨i, t, k, u, vm.dispatches_of_dispatched? nonempty dispatched, failed, by rw [h, ← count]⟩
    · cases exceeds
      exact absurd rfl (ne_limit _)

/-- Under the largest limit a run has a result exactly if it ends by itself before the count comes round. -/
theorem run_noLimit_eq_some_iff {r : Except Fault (Option Int64) × Machine} :
    (vm.withStepLimit noLimit).run m = some r ↔
      ∃ n result t, n ≤ noLimit.toNat ∧ vm.Finishes m n result t ∧ r = (result, ⟨t, .ofNat n, noLimit⟩) := by
  refine ⟨fun h => ?_, fun ⟨n, result, t, le, finishes, eq⟩ => eq ▸ finishes.run_eq noLimit le⟩
  obtain ⟨n, result, t, le, finishes⟩ | ⟨i, t, dispatches⟩ := vm.finishes_or_dispatches m noLimit.toNat
  · cases (finishes.run_eq noLimit le).symm.trans h
    exact ⟨n, result, t, le, finishes, rfl⟩
  · cases dispatches.run_eq_none.symm.trans h

/-- A limit below `2 ^ 64 - 1` only cuts a run off. The limit `2 ^ 64 - 1` does not even do that: a run under it
has a result exactly if it ends by itself before the count of its steps comes round. -/
theorem run_truncates (vm : Machine) (m : Image) :
    (vm.stepLimit < noLimit → ∃ result last, vm.run m = some (result, last) ∧ last.steps ≤ vm.stepLimit + 1 ∧
      (last.steps = vm.stepLimit + 1 ↔ result = .error (.stepLimitExceeded vm.stepLimit)) ∧
      ((∀ limit, result ≠ .error (.stepLimitExceeded limit)) →
        (∀ limit, last.steps ≤ limit →
          (vm.withStepLimit limit).run m = some (result, last.withStepLimit limit)) ∧
        (∀ limit, limit < last.steps → ∃ i t, vm.Dispatches m limit.toNat i t ∧
          (vm.withStepLimit limit).run m = some (.error (.stepLimitExceeded limit), ⟨t, limit + 1, limit⟩)))) ∧
    (∀ other : Machine, other.state.console = vm.state.console → other.stepLimit = vm.stepLimit →
      other.run m = vm.run m) ∧
    ∀ r, (vm.withStepLimit noLimit).run m = some r ↔
      ∃ n result t, n ≤ noLimit.toNat ∧ vm.Finishes m n result t ∧ r = (result, ⟨t, .ofNat n, noLimit⟩) := by
  refine ⟨fun below => ?_, fun other console limit => run_congr console limit m,
    fun r => run_noLimit_eq_some_iff⟩
  have succ := State.toNat_succ below
  obtain ⟨n, result, t, le, finishes⟩ | ⟨i, t, dispatches⟩ := vm.finishes_or_dispatches m vm.stepLimit.toNat
  · have small := Nat.lt_of_le_of_lt le vm.stepLimit.toNat_lt
    have count : (UInt64.ofNat n).toNat = n := UInt64.toNat_ofNat_of_lt' small
    refine ⟨result, ⟨t, .ofNat n, vm.stepLimit⟩, finishes.run_eq vm.stepLimit le, ?_, ?_, fun _ => ⟨?_, ?_⟩⟩
    · rw [UInt64.le_iff_toNat_le, succ, count]
      exact Nat.le_succ_of_le le
    · refine iff_of_false (fun eq => ?_) (finishes.ne_limit _)
      have := congrArg UInt64.toNat eq
      dsimp only at this
      omega
    · intro limit more
      rw [UInt64.le_iff_toNat_le, count] at more
      exact finishes.run_eq limit more
    · intro limit fewer
      rw [UInt64.lt_iff_toNat_lt, count] at fewer
      obtain ⟨i, u, dispatches⟩ := finishes.dispatches limit.toNat fewer
      have lower : limit < vm.stepLimit := UInt64.lt_iff_toNat_lt.2 (Nat.lt_of_lt_of_le fewer le)
      exact ⟨i, u, dispatches, dispatches.run_eq (UInt64.lt_trans lower below)⟩
  · exact ⟨_, ⟨t, vm.stepLimit + 1, vm.stepLimit⟩, dispatches.run_eq below, UInt64.le_refl _, iff_of_true rfl rfl,
      fun other => absurd rfl (other _)⟩

/-- A program of three steps, the second of which calls a function that has no code. -/
def callsNothing : Image where
  globals := []
  functions :=
    [⟨0, 0, 0, 0, [.withOperand .push 7, .withOperand .call 1, .withOperand .callname 3]⟩, ⟨0, 0, 0, 0, []⟩]

/-- With a limit of two steps the function without code has already returned. -/
theorem run_truncates_callsNothing :
    ∃ last, (ofConsole (.ofInput [])).run callsNothing = some (.ok none, last) ∧ last.steps = 3 ∧
    ∃ i t, (ofConsole (.ofInput [])).Dispatches callsNothing 2 i t ∧ t.frames = [⟨0, 3, 0, 0, 0⟩] ∧
      ((ofConsole (.ofInput [])).withStepLimit 2).run callsNothing =
        some (.error (.stepLimitExceeded 2), ⟨t, 3, 2⟩) := by
  have below : defaultStepLimit < noLimit := by decide
  have frames : ((State.start callsNothing (.ofInput [])).dispatched? callsNothing 2).map (·.2.frames) =
      some [⟨0, 3, 0, 0, 0⟩] := by
    decide +kernel
  obtain ⟨result, last, eq, -, -, cut⟩ := (run_truncates (ofConsole (.ofInput [])) callsNothing).1 below
  have same := Option.some.inj ((run_eq_runFor below callsNothing).symm.trans eq)
  obtain rfl : result = .ok none := (congrArg Prod.fst same).symm
  have steps : last.steps = 3 := by
    rw [← congrArg (·.2.steps) same]
    decide +kernel
  obtain ⟨i, t, dispatches, stops⟩ := (cut nofun).2 2 (by rw [steps]; decide)
  refine ⟨last, eq, steps, i, t, dispatches, ?_, stops⟩
  exact Option.some.inj ((congrArg _ dispatches.dispatched).symm.trans frames)

/-- A program that jumps back to its only instruction. -/
def spins : Image where
  globals := []
  functions := [⟨0, 0, 0, 0, [.withOperand .br (-1)]⟩]

/-- It never ends by itself, and the count of its steps never exceeds the largest limit. -/
theorem run_spins : ((ofConsole (.ofInput [])).withStepLimit noLimit).run spins = none ∧
    ∀ n result t, ¬(ofConsole (.ofInput [])).Finishes spins n result t := by
  have step : Action.perform spins (.withOperand .br (-1))
      ⟨#[], #[], [⟨0, 1, 0, 0, 0⟩], .ofInput []⟩ = .ok () (.start spins (.ofInput [])) := by
    rfl
  have on (n : Nat) : ((State.start spins (.ofInput [])).dispatched? spins n).isSome := by
    induction n with
    | zero => rfl
    | succ n ih => rwa [State.dispatched?_succ_of_ok rfl step]
  have dispatches (n : Nat) : ∃ i t, (ofConsole (.ofInput [])).Dispatches spins n i t := by
    obtain ⟨⟨i, t⟩, next⟩ := Option.isSome_iff_exists.1 (on n)
    exact ⟨i, t, dispatches_of_dispatched? _ (by decide) next⟩
  refine ⟨?_, fun n result t finishes => ?_⟩
  · obtain ⟨i, t, next⟩ := dispatches noLimit.toNat
    exact next.run_eq_none
  · obtain ⟨i, t, next⟩ := dispatches n
    exact finishes.stops i t next

end Machine

end CZero
