import CZero.Proofs.Machine.Limit

/-!
# Lookups of the machine are in range

An image need not be well-formed: operands, slots and code can be anything. Still, every active function
exists, and is at one of its instructions or just behind the last one. The machine relies on this when it
looks up the code of a function without asking whether there is one, which it does to fetch an instruction
and to find the end of the code when it jumps.

`State.runChecked?` asks, and gives up where there is none. Main statement (`Machine.run_inRange`): it
never does, for any image, input and limit.
-/

namespace CZero

/-- The function of a frame exists, and the frame is at one of its instructions or behind the last. -/
structure Frame.InRange (m : Image) (f : Frame) : Prop where
  function_lt : f.function < m.functions.length
  pc_le : f.pc ≤ m.length f.function

/-- The frame of a function that is called while the stack has `size` values. The values on top are its
result slots and its arguments. -/
structure Frame.IsCall (m : Image) (size : Nat) (f : Frame) : Prop where
  pc_eq : f.pc = 0
  slots : ∃ g, m.functions[f.function]? = some g ∧ f.retSlots = g.retSlots.toNat ∧
    f.paramSlots = g.paramSlots.toNat
  size_eq : f.base + f.retSlots + f.paramSlots = size

theorem Frame.IsCall.inRange {m : Image} {size : Nat} {f : Frame} (h : f.IsCall m size) : f.InRange m := by
  obtain ⟨g, hg, -⟩ := h.slots
  exact ⟨(List.getElem?_eq_some_iff.1 hg).1, by rw [h.pc_eq]; exact Nat.zero_le _⟩

/-! ### What an instruction does to the active functions -/

namespace Action

variable {m : Image} {i : Instr} {s t : State} {f : Frame} {callers : List Frame}

theorem jump_pc_le {offset : Int64} (h : jump m offset s = .ok () t) (hs : s.frames = f :: callers) :
    ∃ pc, pc ≤ m.length f.function ∧ t.frames = { f with pc } :: callers := by
  unfold jump at h
  rw [hs] at h
  dsimp only at h
  split at h
  · next pc _ =>
    split at h
    · next le =>
      cases h
      exact ⟨pc, le, rfl⟩
    · cases h
  · cases h

theorem call_isCall {index : Int64} (h : call m index s = .ok () t) :
    ∃ g : Frame, t.frames = g :: s.frames ∧ g.IsCall m s.stack.size := by
  unfold call at h
  split at h
  · cases h
  · next k f found =>
    obtain ⟨j, -, hj⟩ := Option.bind_eq_some_iff.1 found
    obtain ⟨g, hg, pair⟩ := Option.map_eq_some_iff.1 hj
    obtain ⟨rfl, rfl⟩ := Prod.mk.inj pair
    dsimp only at h
    split at h
    · cases h
    · next enough =>
      obtain ⟨frames, -⟩ := keeps_pushZeros _ h
      refine ⟨_, frames, rfl, ⟨g, hg, rfl, rfl⟩, ?_⟩
      dsimp only [Frame.enter]
      omega

/-- A call adds the frame of the function that it calls. Any other instruction lets the running function
return, or go on at a place of its code. -/
theorem perform_frames_range (h : perform m i s = .ok () t) (hs : s.frames = f :: callers) :
    (i.opcode = .call ∧ ∃ g : Frame, t.frames = g :: s.frames ∧ g.IsCall m s.stack.size) ∨
    (i.opcode ≠ .call ∧ (t.frames = callers ∨
      ∃ pc, (pc = f.pc ∨ pc ≤ m.length f.function) ∧ t.frames = { f with pc } :: callers)) := by
  cases op : i.opcode with
  | call =>
    simp only [perform, op] at h
    obtain ⟨v, _, read, rest⟩ := bind_eq_ok h
    obtain ⟨-, rfl⟩ := operand_eq_ok read
    exact .inl ⟨rfl, call_isCall rest⟩
  | br =>
    simp only [perform, op] at h
    obtain ⟨v, _, read, rest⟩ := bind_eq_ok h
    obtain ⟨-, rfl⟩ := operand_eq_ok read
    obtain ⟨pc, le, frames⟩ := jump_pc_le rest hs
    exact .inr ⟨by decide, .inr ⟨pc, .inr le, frames⟩⟩
  | brtrue | brfalse =>
    simp only [perform, op] at h
    obtain ⟨v, _, read, rest⟩ := bind_eq_ok h
    obtain ⟨-, rfl⟩ := operand_eq_ok read
    obtain ⟨w, u, popped, last⟩ := bind_eq_ok rest
    have same := (keeps_pop popped).1.trans hs
    split at last
    · obtain ⟨pc, le, frames⟩ := jump_pc_le last same
      exact .inr ⟨by decide, .inr ⟨pc, .inr le, frames⟩⟩
    · cases last
      exact .inr ⟨by decide, .inr ⟨f.pc, .inl rfl, same⟩⟩
  | ret =>
    simp only [perform, op] at h
    exact .inr ⟨by decide, .inl (by rw [ret_eq_ok h hs])⟩
  | _ =>
    refine .inr ⟨by decide, .inr ⟨f.pc, .inl rfl, (keeps_perform ?_ ?_ ?_ h).1.trans hs⟩⟩
    all_goals simp [op, Opcode.isBranch]

end Action

/-! ### Active functions stay in range -/

namespace State

/-- All active functions are in range. -/
def InRange (m : Image) (s : State) : Prop :=
  ∀ f ∈ s.frames, f.InRange m

/-- The states that a run from `s` comes through. -/
inductive Visits (m : Image) (s : State) : State → Prop
  /-- The running function is about to fetch an instruction, or all functions have returned. -/
  | between {t} : Moves m s t → Visits m s t
  /-- The running function is about to execute the instruction that it has fetched. -/
  | fetched {t f callers i} : Moves m s t → t.frames = f :: callers → m.instr? f.function f.pc = some i →
    Visits m s { t with frames := { f with pc := f.pc + 1 } :: callers }
  /-- This instruction has failed. -/
  | failed {t u f callers i e} : Moves m s t → t.frames = f :: callers → m.instr? f.function f.pc = some i →
    Action.perform m i { t with frames := { f with pc := f.pc + 1 } :: callers } = .error e u → Visits m s u

variable {m : Image} {s t : State} {i : Instr} {f : Frame} {callers : List Frame}

theorem inRange_start (nonempty : ¬m.functions.isEmpty) (console : Console) : (start m console).InRange m := by
  intro f mem
  cases List.mem_singleton.1 mem
  refine ⟨?_, Nat.zero_le _⟩
  rw [List.isEmpty_iff, ← ne_eq, ← List.length_pos_iff] at nonempty
  exact nonempty

/-- A function that has an instruction left can go on behind it. -/
theorem InRange.fetched (h : s.InRange m) (hs : s.frames = f :: callers)
    (hi : m.instr? f.function f.pc = some i) :
    InRange m { s with frames := { f with pc := f.pc + 1 } :: callers } := by
  rw [InRange, hs, List.forall_mem_cons] at h
  exact List.forall_mem_cons.2 ⟨⟨h.1.function_lt, Image.lt_length hi⟩, h.2⟩

theorem InRange.left (h : s.InRange m) (hs : s.frames = f :: callers) :
    InRange m { s with stack := leave f callers s.stack, frames := callers } := by
  rw [InRange, hs, List.forall_mem_cons] at h
  exact h.2

theorem InRange.performed (h : s.InRange m) (hs : s.frames = f :: callers)
    (ht : Action.perform m i s = .ok () t) : t.InRange m := by
  unfold InRange at h ⊢
  obtain ⟨-, g, frames, called⟩ | ⟨-, frames | ⟨pc, place, frames⟩⟩ := Action.perform_frames_range ht hs
  · rw [frames]
    exact List.forall_mem_cons.2 ⟨called.inRange, h⟩
  · rw [hs, List.forall_mem_cons] at h
    rw [frames]
    exact h.2
  · rw [hs, List.forall_mem_cons] at h
    rw [frames]
    refine List.forall_mem_cons.2 ⟨⟨h.1.function_lt, ?_⟩, h.2⟩
    obtain rfl | le := place
    · exact h.1.pc_le
    · exact le

theorem InRange.failed {e : Fault} (h : s.InRange m) (ht : Action.perform m i s = .error e t) : t.InRange m := by
  rw [InRange, (Action.fails_perform m i ht).2]
  exact h

/-- What one move keeps. -/
theorem InRange.move (h : s.InRange m) (move : Move m s t) : t.InRange m := by
  cases move with
  | exec hs hi ht => exact (h.fetched hs hi).performed rfl ht
  | leave hs hi => exact h.left hs

/-- What all moves keep. -/
theorem InRange.moves (h : s.InRange m) (moves : Moves m s t) : t.InRange m := by
  induction moves with
  | refl => exact h
  | tail _ move ih => exact ih.move move

/-! ### All states of a run are in range -/

theorem InRange.visits (h : s.InRange m) (visits : Visits m s t) : t.InRange m := by
  cases visits with
  | between moves => exact h.moves moves
  | fetched moves hs hi => exact (h.moves moves).fetched hs hi
  | failed moves hs hi ht => exact ((h.moves moves).fetched hs hi).failed ht

theorem Visits.of_moves {u : State} (first : Moves m s t) (visits : Visits m t u) : Visits m s u := by
  cases visits with
  | between moves => exact .between (first.trans moves)
  | fetched moves hs hi => exact .fetched (first.trans moves) hs hi
  | failed moves hs hi ht => exact .failed (first.trans moves) hs hi ht

/-- What is fetched belongs to a function that is running after some moves. -/
theorem moves_of_fetch_some (h : s.fetch m s.frames = (some i, t)) :
    ∃ (u : State) (f : Frame) (callers : List Frame), Moves m s u ∧ u.frames = f :: callers ∧
      m.instr? f.function f.pc = some i ∧ t = { u with frames := { f with pc := f.pc + 1 } :: callers } := by
  induction hs : s.frames generalizing s with
  | nil =>
    rw [hs] at h
    cases h
  | cons f callers ih =>
    cases hi : m.instr? f.function f.pc with
    | some j =>
      rw [fetch_of_instr hs hi] at h
      cases h
      exact ⟨s, f, callers, .refl, hs, hi, rfl⟩
    | none =>
      rw [fetch_of_leave hs hi] at h
      obtain ⟨u, g, rest, moves, frames, found, eq⟩ := ih h rfl
      exact ⟨u, g, rest, .head (.leave hs hi) moves, frames, found, eq⟩

theorem moves_of_fetch_none (h : s.fetch m s.frames = (none, t)) : Moves m s t := by
  induction hs : s.frames generalizing s with
  | nil =>
    rw [hs] at h
    cases h
    rw [← hs]
  | cons f callers ih =>
    cases hi : m.instr? f.function f.pc with
    | some j =>
      rw [fetch_of_instr hs hi] at h
      cases h
    | none =>
      rw [fetch_of_leave hs hi] at h
      exact .head (.leave hs hi) (ih h rfl)

theorem moves_of_perform {u : State} (h : s.fetch m s.frames = (some i, t))
    (executed : Action.perform m i t = .ok () u) : Moves m s u := by
  obtain ⟨v, f, callers, moves, hs, hi, rfl⟩ := moves_of_fetch_some h
  exact moves.tail (.exec hs hi executed)

theorem visits_of_fetch (h : s.fetch m s.frames = (some i, t)) : Visits m s t := by
  obtain ⟨u, f, callers, moves, hs, hi, rfl⟩ := moves_of_fetch_some h
  exact .fetched moves hs hi

theorem visits_of_dispatched? {n : Nat} (h : s.dispatched? m n = some (i, t)) : Visits m s t := by
  induction n generalizing s with
  | zero =>
    rw [dispatched?] at h
    split at h
    · next fetched =>
      cases h
      exact visits_of_fetch fetched
    · cases h
  | succ n ih =>
    obtain ⟨j, v, u, fetched, executed, rest⟩ := exists_of_dispatched?_succ h
    exact (ih rest).of_moves (moves_of_perform fetched executed)

theorem Halts.visits {n : Nat} {o : Except Fault Unit} (h : Halts m s n o t) : Visits m s t := by
  induction h with
  | done fetched => exact .between (moves_of_fetch_none fetched)
  | fault fetched failed =>
    obtain ⟨u, f, callers, moves, hs, hi, rfl⟩ := moves_of_fetch_some fetched
    exact .failed moves hs hi failed
  | step fetched executed _ ih => exact ih.of_moves (moves_of_perform fetched executed)

/-- A run ends in a state that it comes through. -/
theorem visits_of_run {limit steps : UInt64} {halt : Halt} (h : s.run m limit steps = some halt) :
    Visits m s halt.state := by
  fun_induction State.run m limit s steps with
  | case1 s steps t fetched =>
    cases h
    exact (Halts.done fetched).visits
  | case2 s steps i t fetched =>
    cases h
    exact visits_of_fetch fetched
  | case3 => cases h
  | case4 s steps i t fetched _ _ u executed ih => exact (ih h).of_moves (moves_of_perform fetched executed)
  | case5 s steps i t fetched _ _ e u failed =>
    cases h
    exact (Halts.fault fetched failed).visits

/-! ### Checked lookups -/

/-- Takes the next instruction like `fetch`, but gives up at a frame whose function does not exist. -/
def fetchChecked? (m : Image) (s : State) : List Frame → Option (Option Instr × State)
  | [] => some (none, { s with frames := [] })
  | f :: callers =>
    if h : f.function < m.functions.length then
      match (m.functions.get ⟨f.function, h⟩).body[f.pc]? with
      | some i => some (some i, { s with frames := { f with pc := f.pc + 1 } :: callers })
      | none => fetchChecked? m { s with stack := leave f callers s.stack } callers
    else none

/-- Executes an instruction, but gives up if it jumps in a function that does not exist. -/
def performChecked? (m : Image) (i : Instr) (s : State) : Option (EStateM.Result Fault State Unit) :=
  if i.jumps s.stack ∧ s.frames.head?.any (m.functions.length ≤ ·.function) then none
  else some (Action.perform m i s)

/-- Runs a program like `run`, but gives up, with `none` for how it ended, at each lookup of a function that
does not exist. -/
def runChecked (m : Image) (limit : UInt64) (s : State) (steps : UInt64) : Option (Option Halt) :=
  match s.fetchChecked? m s.frames with
  | none => some none
  | some (none, s) => some (some ⟨.ok (), s, steps⟩)
  | some (some i, s) =>
    if limit < steps + 1 then some (some ⟨.error (.stepLimitExceeded limit), s, steps + 1⟩)
    else if steps + 1 = 0 then none
    else
      match s.performChecked? m i with
      | none => some none
      | some (.ok () s) => s.runChecked m limit (steps + 1)
      | some (.error e s) => some (some ⟨.error e, s, steps + 1⟩)
termination_by UInt64.size - steps.toNat
decreasing_by exact size_sub_succ_lt ‹_›

theorem fetchChecked?_eq {frames : List Frame} (h : ∀ f ∈ frames, f.InRange m) (s : State) :
    s.fetchChecked? m frames = some (s.fetch m frames) := by
  induction frames generalizing s with
  | nil => rfl
  | cons f callers ih =>
    obtain ⟨first, rest⟩ := List.forall_mem_cons.1 h
    have found : m.instr? f.function f.pc = (m.functions.get ⟨f.function, first.function_lt⟩).body[f.pc]? := by
      rw [Image.instr?, List.getElem?_eq_getElem first.function_lt]
      rfl
    rw [fetchChecked?, dif_pos first.function_lt, fetch, ← found]
    cases m.instr? f.function f.pc with
    | some i => rfl
    | none => exact ih rest _

theorem performChecked?_eq (h : s.InRange m) (i : Instr) :
    s.performChecked? m i = some (Action.perform m i s) := by
  rw [performChecked?, if_neg]
  rintro ⟨-, missing⟩
  cases hs : s.frames with
  | nil =>
    rw [hs] at missing
    cases missing
  | cons f callers =>
    rw [hs] at missing
    have there := (h f (by rw [hs]; exact .head _)).function_lt
    simp only [List.head?_cons, Option.any_some, decide_eq_true_eq] at missing
    omega

/-- A run whose active functions are in range never gives up. -/
theorem runChecked_eq (h : s.InRange m) (limit steps : UInt64) :
    s.runChecked m limit steps = (s.run m limit steps).map some := by
  fun_induction State.run m limit s steps with
  | case1 s steps t fetched =>
    rw [runChecked, fetchChecked?_eq h, fetched]
    rfl
  | case2 s steps i t fetched exceeds =>
    rw [runChecked, fetchChecked?_eq h, fetched]
    exact if_pos exceeds
  | case3 s steps i t fetched within round =>
    rw [runChecked, fetchChecked?_eq h, fetched]
    dsimp only
    rw [if_neg within, if_pos round]
    rfl
  | case4 s steps i t fetched within counts u executed ih =>
    rw [runChecked, fetchChecked?_eq h, fetched]
    dsimp only
    rw [if_neg within, if_neg counts, performChecked?_eq (h.visits (visits_of_fetch fetched)), executed]
    exact ih (h.moves (moves_of_perform fetched executed))
  | case5 s steps i t fetched within counts e u failed =>
    rw [runChecked, fetchChecked?_eq h, fetched]
    dsimp only
    rw [if_neg within, if_neg counts, performChecked?_eq (h.visits (visits_of_fetch fetched)), failed]
    rfl

end State

namespace Machine

/-- The states that a machine comes through when it runs a program, under any limit. A program without
functions is not even started. -/
def Visits (vm : Machine) (m : Image) (t : State) : Prop :=
  if m.functions.isEmpty then t = { State.start m vm.state.console with frames := [] }
  else State.Visits m (.start m vm.state.console) t

variable {m : Image} {vm : Machine} {t : State}

theorem Visits.inRange (h : vm.Visits m t) : t.InRange m := by
  unfold Visits at h
  split at h
  · rw [h]
    exact nofun
  · next nonempty => exact (State.inRange_start nonempty _).visits h

theorem visits_of_run {r : Except Fault (Option Int64) × Machine} (h : vm.run m = some r) :
    vm.Visits m r.2.state := by
  unfold Visits
  split
  · next empty =>
    cases (run_of_isEmpty empty vm).symm.trans h
    rfl
  · next nonempty =>
    rw [run_of_nonempty nonempty] at h
    obtain ⟨halt, run, rfl⟩ := Option.map_eq_some_iff.1 h
    exact State.visits_of_run run

theorem Dispatches.visits {n : Nat} {i : Instr} (h : vm.Dispatches m n i t) : vm.Visits m t := by
  rw [Visits, if_neg h.nonempty]
  exact State.visits_of_dispatched? h.dispatched

/-- Whatever the image, the input and the limit, all functions that are active at any time are in range,
and no lookup of their code fails. A function is entered with the stack that its caller has left. -/
theorem run_inRange (vm : Machine) (m : Image) :
    (∀ t, vm.Visits m t → ∀ f ∈ t.frames, f.InRange m) ∧
    (∀ result last, vm.run m = some (result, last) → vm.Visits m last.state) ∧
    (∀ n i t, vm.Dispatches m n i t → vm.Visits m t ∧ ∀ u, Action.perform m i t = .ok () u →
      (i.opcode = .call ∧ ∃ g : Frame, u.frames = g :: t.frames ∧ g.IsCall m t.stack.size) ∨
      (i.opcode ≠ .call ∧ u.frames.length ≤ t.frames.length)) ∧
    (¬m.functions.isEmpty → (State.start m vm.state.console).runChecked m vm.stepLimit 0 =
      ((State.start m vm.state.console).run m vm.stepLimit 0).map some) := by
  refine ⟨fun t visits => visits.inRange, fun result last run => visits_of_run run, fun n i t dispatches => ?_,
    fun nonempty => ?_⟩
  · refine ⟨dispatches.visits, fun u executed => ?_⟩
    obtain ⟨f, callers, frames, -⟩ := dispatches.fetched
    obtain called | ⟨other, frames' | ⟨pc, -, frames'⟩⟩ := Action.perform_frames_range executed frames
    · exact .inl called
    · exact .inr ⟨other, by rw [frames', frames, List.length_cons]; exact Nat.le_succ _⟩
    · exact .inr ⟨other, by rw [frames', frames]; exact Nat.le_refl _⟩
  · exact State.runChecked_eq (State.inRange_start nonempty _) vm.stepLimit 0

end Machine

end CZero
