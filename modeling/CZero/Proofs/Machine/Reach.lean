import CZero.Proofs.Machine.Limit
import Mathlib.Algebra.Order.Ring.Nat

/-!
# Runs with a bounded stack

A place on the stack is an address as long as the stack has at most `2 ^ 40` values; from there on
addresses are those of globals. What a program does is therefore only known of runs that stay below this
bound. `Leads m k s t` is what is known then: from `s` the machine comes to `t` in `k` steps, or runs into
its limit on the way. Leads compose, and one ends up as an equation about `State.runFor`.
-/

namespace CZero

namespace State

/-- The state after `n` steps, of which none fails. -/
inductive Reach (m : Image) : Nat → State → State → Prop
  | refl {s} : Reach m 0 s s
  | exec {n s t u f callers i} : s.frames = f :: callers → m.instr? f.function f.pc = some i →
    Action.perform m i { s with frames := { f with pc := f.pc + 1 } :: callers } = .ok () t →
    Reach m n t u → Reach m (n + 1) s u
  | leave {n s u f callers} : s.frames = f :: callers → m.instr? f.function f.pc = none →
    Reach m n { s with stack := leave f callers s.stack, frames := callers } u → Reach m n s u

variable {m : Image} {s t u : State} {i : Instr} {n k : Nat}

theorem Reach.trans (first : Reach m n s t) (second : Reach m k t u) : Reach m (n + k) s u := by
  induction first with
  | refl => rwa [Nat.zero_add]
  | exec hs hi ht _ ih =>
    rw [Nat.add_right_comm]
    exact .exec hs hi ht (ih second)
  | leave hs hi _ ih => exact .leave hs hi (ih second)

/-! ### Runs come to the states that they reach -/

/-- What is fetched belongs to a function that is running once others have returned. -/
theorem reach_of_fetch (h : s.fetch m s.frames = (some i, t)) :
    ∃ (u : State) (f : Frame) (callers : List Frame), Reach m 0 s u ∧ u.frames = f :: callers ∧
      m.instr? f.function f.pc = some i ∧ t = { u with frames := { f with pc := f.pc + 1 } :: callers } := by
  induction hs : s.frames generalizing s with
  | nil =>
    rw [hs] at h
    cases h
  | cons f callers ih =>
    cases hi : m.instr? f.function f.pc with
    | some j =>
      rw [fetch_of_instr hs hi] at h
      cases h
      exact ⟨s, f, callers, .refl, hs, hi, rfl⟩
    | none =>
      rw [fetch_of_leave hs hi] at h
      obtain ⟨u, g, rest, reach, found⟩ := ih h rfl
      exact ⟨u, g, rest, .leave hs hi reach, found⟩

/-- The state in which the instruction number `n` is executed is reached in `n` steps. -/
theorem reach_of_dispatched? (h : s.dispatched? m n = some (i, t)) :
    ∃ (u : State) (f : Frame) (callers : List Frame), Reach m n s u ∧ u.frames = f :: callers ∧
      m.instr? f.function f.pc = some i ∧ t = { u with frames := { f with pc := f.pc + 1 } :: callers } := by
  induction n generalizing s with
  | zero =>
    rw [dispatched?] at h
    split at h
    · next fetched =>
      cases h
      exact reach_of_fetch fetched
    · cases h
  | succ n ih =>
    obtain ⟨j, v, w, fetched, executed, rest⟩ := exists_of_dispatched?_succ h
    obtain ⟨u, f, callers, before, hs, hi, rfl⟩ := reach_of_fetch fetched
    obtain ⟨x, g, others, after, found⟩ := ih rest
    have both := before.trans (.exec hs hi executed after)
    rw [Nat.zero_add] at both
    exact ⟨x, g, others, both, found⟩

/-- When all functions have returned, all of them had used up their code. -/
theorem reach_of_fetch_none (h : s.fetch m s.frames = (none, t)) : Reach m 0 s t := by
  induction hs : s.frames generalizing s with
  | nil =>
    rw [hs] at h
    cases h
    rw [← hs]
    exact .refl
  | cons f callers ih =>
    cases hi : m.instr? f.function f.pc with
    | some j =>
      rw [fetch_of_instr hs hi] at h
      cases h
    | none =>
      rw [fetch_of_leave hs hi] at h
      exact .leave hs hi (ih h rfl)

/-- How a run ends depends on what it fetches. -/
theorem Halts.of_fetch_eq {o : Except Fault Unit} (eq : s.fetch m s.frames = t.fetch m t.frames)
    (h : Halts m t n o u) : Halts m s n o u := by
  cases h with
  | done fetched => exact .done (eq.trans fetched)
  | fault fetched failed => exact .fault (eq.trans fetched) failed
  | step fetched executed rest => exact .step (eq.trans fetched) executed rest

/-- A run that reaches a state ends as it does from there. -/
theorem Reach.halts {o : Except Fault Unit} (reach : Reach m n s t) (h : Halts m t k o u) :
    Halts m s (n + k) o u := by
  induction reach with
  | refl => rwa [Nat.zero_add]
  | exec hs hi ht _ ih =>
    rw [Nat.add_right_comm]
    exact .step (fetch_of_instr hs hi) ht (ih h)
  | leave hs hi _ ih => exact (ih h).of_fetch_eq (fetch_of_leave hs hi)

/-- What a run executes next depends on what it fetches. -/
theorem dispatched?_of_fetch_eq (eq : s.fetch m s.frames = t.fetch m t.frames) (n : Nat) :
    s.dispatched? m n = t.dispatched? m n := by
  cases n <;> rw [dispatched?, dispatched?, eq]

/-- A run that reaches a state executes what it executes from there. -/
theorem Reach.dispatched?_add {x : Instr × State} (reach : Reach m n s t) (h : t.dispatched? m k = some x) :
    s.dispatched? m (n + k) = some x := by
  induction reach with
  | refl => rwa [Nat.zero_add]
  | leave hs hi _ ih => exact (dispatched?_of_fetch_eq (fetch_of_leave hs hi) _).trans (ih h)
  | exec hs hi ht _ ih =>
    rw [Nat.add_right_comm]
    exact (dispatched?_succ_of_ok (fetch_of_instr hs hi) ht _).trans (ih h)

/-- A run that reaches a state with `n` steps executes an instruction after fewer others. -/
theorem Reach.exists_dispatched? (reach : Reach m n s t) (lt : k < n) :
    ∃ i u, s.dispatched? m k = some (i, u) := by
  induction reach generalizing k with
  | refl => cases lt
  | leave hs hi _ ih =>
    rw [dispatched?_of_fetch_eq (fetch_of_leave hs hi)]
    exact ih lt
  | exec hs hi ht _ ih =>
    cases k with
    | zero => exact ⟨_, _, dispatched?_zero_of_fetch (fetch_of_instr hs hi)⟩
    | succ k =>
      rw [dispatched?_succ_of_ok (fetch_of_instr hs hi) ht]
      exact ih (Nat.lt_of_succ_lt_succ lt)

/-! ### Room on the stack -/

/-- For the next `limit` steps the stack has at most `2 ^ 40` values. -/
def Roomy (m : Image) (limit : Nat) (s : State) : Prop :=
  ∀ k t, k ≤ limit → Reach m k s t → t.stack.size ≤ 2 ^ 40

theorem Roomy.size_le (h : Roomy m n s) : s.stack.size ≤ 2 ^ 40 :=
  h 0 s (Nat.zero_le n) .refl

theorem Roomy.reach (h : Roomy m (n + k) s) (reach : Reach m n s t) : Roomy m k t :=
  fun i u hi hu => h (n + i) u (Nat.add_le_add_left hi n) (reach.trans hu)

/-- As long as there is room, `k` steps lead from `s` to `t`. -/
def Leads (m : Image) (k : Nat) (s t : State) : Prop :=
  ∀ limit, Roomy m limit s → (k ≤ limit → Reach m k s t) ∧ (limit < k → ∃ u, Reach m (limit + 1) s u)

theorem Leads.refl (m : Image) (s : State) : Leads m 0 s s :=
  fun _ _ => ⟨fun _ => .refl, fun h => nomatch h⟩

theorem Leads.trans (first : Leads m n s t) (second : Leads m k t u) : Leads m (n + k) s u := by
  intro limit roomy
  obtain ⟨reach, beyond⟩ := first limit roomy
  by_cases le : n ≤ limit
  · obtain ⟨rest, rfl⟩ := Nat.exists_eq_add_of_le le
    obtain ⟨reach', beyond'⟩ := second rest (roomy.reach (reach le))
    refine ⟨fun h => (reach le).trans (reach' (Nat.le_of_add_le_add_left h)), fun h => ?_⟩
    obtain ⟨v, hv⟩ := beyond' (Nat.lt_of_add_lt_add_left h)
    exact ⟨v, (reach le).trans hv⟩
  · exact ⟨fun h => absurd h (by omega), fun _ => beyond (Nat.lt_of_not_le le)⟩

/-- One step. -/
theorem leads_exec {f : Frame} {callers : List Frame} {i : Instr} (hs : s.frames = f :: callers)
    (hi : m.instr? f.function f.pc = some i)
    (ht : s.stack.size ≤ 2 ^ 40 →
      Action.perform m i { s with frames := { f with pc := f.pc + 1 } :: callers } = .ok () t) :
    Leads m 1 s t := by
  intro limit roomy
  have step : Reach m 1 s t := .exec hs hi (ht roomy.size_le) .refl
  refine ⟨fun _ => step, fun lt => ?_⟩
  obtain rfl : limit = 0 := by omega
  exact ⟨t, step⟩

/-- A function whose code is used up returns at no cost. -/
theorem leads_leave {f : Frame} {callers : List Frame} (hs : s.frames = f :: callers)
    (hi : m.instr? f.function f.pc = none) :
    Leads m 0 s { s with stack := leave f callers s.stack, frames := callers } :=
  fun _ _ => ⟨fun _ => .leave hs hi .refl, fun h => nomatch h⟩

end State

/-! ### Growth of the stack -/

/-- No instruction adds more than `b` values to the stack, and no function has more local variables. -/
structure Image.IsLight (m : Image) (b : Nat) : Prop where
  code : ∀ f ∈ m.functions, ∀ i ∈ f.body, i.growth ≤ b
  locals : ∀ f ∈ m.functions, f.localSlots.toNat ≤ b

theorem State.size_leave_le (f : Frame) (callers : List Frame) (stack : Array Int64) :
    (leave f callers stack).size ≤ stack.size := by
  unfold leave
  split
  · exact Nat.le_refl _
  · rw [Array.size_shrink]
    exact Nat.min_le_right _ _

namespace Image.IsLight

variable {m : Image} {b : Nat} {s t : State}

/-- What one instruction adds. -/
theorem size_perform {i : Instr} {f : Frame} {callers : List Frame} (h : m.IsLight b) (hi : i.growth ≤ b)
    (hs : s.frames = f :: callers) (ht : Action.perform m i s = .ok () t) :
    t.stack.size ≤ s.stack.size + b := by
  cases op : i.opcode with
  | br =>
    simp only [Action.perform, op] at ht
    obtain ⟨v, _, read, rest⟩ := Action.bind_eq_ok ht
    obtain ⟨-, rfl⟩ := Action.operand_eq_ok read
    obtain ⟨pc, -, rfl⟩ := Action.jump_eq_ok rest hs
    exact Nat.le_add_right _ _
  | brtrue | brfalse =>
    simp only [Action.perform, op] at ht
    obtain ⟨v, _, read, rest⟩ := Action.bind_eq_ok ht
    obtain ⟨-, rfl⟩ := Action.operand_eq_ok read
    obtain ⟨w, u, popped, last⟩ := Action.bind_eq_ok rest
    obtain ⟨frames, size⟩ := Action.keeps_pop popped
    split at last
    · obtain ⟨pc, -, rfl⟩ := Action.jump_eq_ok last (frames.trans hs)
      exact Nat.le_add_right_of_le size
    · cases last
      exact Nat.le_add_right_of_le size
  | call =>
    simp only [Action.perform, op] at ht
    obtain ⟨v, _, read, rest⟩ := Action.bind_eq_ok ht
    obtain ⟨-, rfl⟩ := Action.operand_eq_ok read
    obtain ⟨-, -, f, mem, size⟩ := Action.call_eq_ok rest
    exact Nat.le_trans size (Nat.add_le_add_left (h.locals f mem) _)
  | ret =>
    simp only [Action.perform, op] at ht
    rw [Action.ret_eq_ok ht hs]
    exact Nat.le_add_right_of_le (State.size_leave_le _ _ _)
  | _ =>
    refine Nat.le_trans (Action.keeps_perform ?_ ?_ ?_ ht).2 (Nat.add_le_add_left hi _)
    all_goals simp [op, Opcode.isBranch]

/-- What a run adds. -/
theorem size_reach {n : Nat} (h : m.IsLight b) (reach : State.Reach m n s t) :
    t.stack.size ≤ s.stack.size + n * b := by
  induction reach with
  | refl => exact Nat.le_add_right _ _
  | @exec n s t u f callers i hs hi ht _ ih =>
    obtain ⟨g, hg, hx⟩ := Option.bind_eq_some_iff.1 hi
    have light := h.code g (List.mem_of_getElem? hg) i (List.mem_of_getElem? hx)
    have step := h.size_perform (f := { f with pc := f.pc + 1 }) light rfl ht
    dsimp only at step
    rw [Nat.succ_mul]
    omega
  | @leave n s u f callers hs hi _ ih =>
    exact Nat.le_trans ih (Nat.add_le_add_right (State.size_leave_le f callers s.stack) _)

/-- A run of few steps has room on the stack. -/
theorem roomy {limit : Nat} (h : m.IsLight b) (few : s.stack.size + limit * b ≤ 2 ^ 40) :
    State.Roomy m limit s := by
  intro n t le reach
  have size := h.size_reach reach
  have := Nat.mul_le_mul_right b le
  omega

end Image.IsLight

end CZero
