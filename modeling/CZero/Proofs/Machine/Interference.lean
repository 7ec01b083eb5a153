import CZero.Proofs.Machine.Limit

/-!
# What a run has to do with its console

A run only takes values from the front of its input and appends text to its output. What was printed
before has no influence on it, and neither has input that it does not come to read.

    input    | what the run reads | rest | more |
    output   | before | what the run prints |

Only reading and printing touch the console; all other computations are blind to it (`Action.IsBlind`).
`Action.IsLocal` is what remains true of reading and printing: a computation does the same on a console
with something printed `before` and with `more` input behind its own, unless it runs out of input. Main
statement: `Machine.run_console`.
-/

namespace CZero

/-- The console on which `before` was printed already, and that has `more` input behind its own. -/
def Console.within (c : Console) (before : String) (more : List Int64) : Console :=
  ⟨c.input ++ more, before ++ c.output⟩

namespace State

/-- The state with another console. -/
def withConsole (s : State) (c : Console) : State :=
  { s with console := c }

/-- The state on a console on which `before` was printed already, and that has `more` input. -/
def within (s : State) (before : String) (more : List Int64) : State :=
  s.withConsole (s.console.within before more)

end State

namespace Action

/-- Changes the state in which a computation ends. -/
def mapState {α : Type} (g : State → State) :
    EStateM.Result Fault State α → EStateM.Result Fault State α
  | .ok a t => .ok a (g t)
  | .error e t => .error e (g t)

/-- The state in which a computation ends. -/
def endState {α : Type} : EStateM.Result Fault State α → State
  | .ok _ t | .error _ t => t

/-- The fault that a computation ends with. -/
def fault? {α : Type} : EStateM.Result Fault State α → Option Fault
  | .ok _ _ => none
  | .error e _ => some e

variable {α β : Type} {m : Image}

/-! ### Computations that are blind to the console -/

/-- A computation that neither looks at the console nor changes it. -/
def IsBlind (x : Action α) : Prop :=
  ∀ s c, x (s.withConsole c) = mapState (·.withConsole c) (x s)

theorem isBlind_pure (a : α) : IsBlind (pure a) :=
  fun _ _ => rfl

theorem isBlind_throw (e : Fault) : IsBlind (throw e : Action α) :=
  fun _ _ => rfl

theorem IsBlind.bind {x : Action α} {f : α → Action β} (hx : x.IsBlind) (hf : ∀ a, (f a).IsBlind) :
    IsBlind (x >>= f) := by
  intro s c
  have first := hx s c
  cases eq : x s with
  | ok a t =>
    rw [eq] at first
    rw [bind_of_ok eq, bind_of_ok first]
    exact hf a t c
  | error e t =>
    rw [eq] at first
    rw [bind_of_error eq, bind_of_error first]
    rfl

theorem isBlind_push (v : Int64) : (push v).IsBlind :=
  fun _ _ => rfl

theorem isBlind_pushZeros (n : Nat) : (pushZeros n).IsBlind :=
  fun _ _ => rfl

theorem isBlind_pop : pop.IsBlind := by
  intro s c
  simp only [pop, State.withConsole]
  cases s.stack.back? <;> rfl

theorem isBlind_setTop (v : Int64) : (setTop v).IsBlind := by
  intro s c
  by_cases empty : s.stack.isEmpty <;> simp [setTop, State.withConsole, mapState, empty]

theorem isBlind_frame : frame.IsBlind := by
  intro s c
  cases frames : s.frames <;> simp [frame, State.withConsole, mapState, frames]

theorem isBlind_load (address : Int64) : (load address).IsBlind := by
  intro s c
  simp only [load, State.withConsole]
  split <;> rfl

theorem isBlind_store (address value : Int64) : (store address value).IsBlind := by
  intro s c
  simp only [store, State.withConsole]
  by_cases isGlobal : globalBase ≤ address
  · cases index : index? (address - globalBase) with
    | none => simp [isGlobal, mapState]
    | some k => by_cases lt : k < s.globals.size <;> simp [isGlobal, mapState, lt]
  · cases index : index? address with
    | none => simp [isGlobal, mapState]
    | some k => by_cases lt : k < s.stack.size <;> simp [isGlobal, mapState, lt]

theorem isBlind_operand (i : Instr) : (operand i).IsBlind := by
  unfold operand
  split
  · exact isBlind_pure _
  · exact isBlind_throw _

theorem isBlind_slotOperand (i : Instr) : (slotOperand i).IsBlind := by
  refine (isBlind_operand i).bind fun v => ?_
  split
  · exact isBlind_pure _
  · exact isBlind_throw _

theorem isBlind_binary (op : Int64 → Int64 → Int64) : (binary op).IsBlind :=
  isBlind_pop.bind fun _ => isBlind_pop.bind fun _ => isBlind_push _

theorem isBlind_unary (op : Int64 → Int64) : (unary op).IsBlind :=
  isBlind_pop.bind fun _ => isBlind_push _

theorem isBlind_divide : divide.IsBlind := by
  refine isBlind_pop.bind fun _ => isBlind_pop.bind fun _ => ?_
  split
  · exact (isBlind_throw _).bind fun _ => isBlind_push _
  · exact (isBlind_pure _).bind fun _ => isBlind_push _

theorem isBlind_jump (offset : Int64) : (jump m offset).IsBlind := by
  intro s c
  obtain ⟨stack, globals, frames, console⟩ := s
  cases frames with
  | nil => rfl
  | cons f callers =>
    simp only [jump, State.withConsole]
    cases index? (Int64.ofNat f.pc + offset) with
    | none => rfl
    | some pc =>
      by_cases le : pc ≤ (m.functions[f.function]?.map (·.body.length)).getD 0 <;> simp [mapState, le]

theorem isBlind_call (index : Int64) : (call m index).IsBlind := by
  intro s c
  simp only [call, State.withConsole]
  cases (index? index).bind fun i => m.functions[i]?.map fun f => (i, f) with
  | none => rfl
  | some found =>
    by_cases short : s.stack.size < found.2.retSlots.toNat + found.2.paramSlots.toNat <;>
      simp [mapState, short, pushZeros]

theorem isBlind_ret : ret.IsBlind := by
  intro s c
  simp only [ret, State.withConsole]
  split <;> rfl

/-- Only library functions touch the console. -/
theorem isBlind_perform {i : Instr} (h : i.opcode ≠ .callname) : (perform m i).IsBlind := by
  cases op : i.opcode with
  | callname => exact absurd op h
  | push | globa =>
    simp only [perform, op]
    exact (isBlind_operand i).bind fun _ => isBlind_push _
  | loca | arga =>
    simp only [perform, op]
    exact (isBlind_slotOperand i).bind fun _ => isBlind_frame.bind fun _ => isBlind_push _
  | stackalloc =>
    simp only [perform, op]
    exact (isBlind_slotOperand i).bind fun _ => isBlind_pushZeros _
  | load64 =>
    simp only [perform, op]
    exact isBlind_pop.bind fun _ => (isBlind_load _).bind fun _ => isBlind_push _
  | store64 =>
    simp only [perform, op]
    exact isBlind_pop.bind fun _ => isBlind_pop.bind fun _ => isBlind_store _ _
  | addi | subi | multi | cmpi =>
    simp only [perform, op]
    exact isBlind_binary _
  | negi | setlt | setgt =>
    simp only [perform, op]
    exact isBlind_unary _
  | divi =>
    simp only [perform, op]
    exact isBlind_divide
  | br =>
    simp only [perform, op]
    exact (isBlind_operand i).bind fun _ => isBlind_jump _
  | brtrue | brfalse =>
    simp only [perform, op]
    refine (isBlind_operand i).bind fun _ => isBlind_pop.bind fun _ => ?_
    split
    · exact isBlind_jump _
    · exact isBlind_pure _
  | call =>
    simp only [perform, op]
    exact (isBlind_operand i).bind fun _ => isBlind_call _
  | ret =>
    simp only [perform, op]
    exact isBlind_ret

/-! ### Computations that read and print -/

/-- A computation that takes its input from the front, and does the same whatever was printed before. If
it does not run out of input, it does the same with more input too. -/
structure IsLocal (x : Action α) : Prop where
  suffix : ∀ s, (endState (x s)).console.input <:+ s.console.input
  within : ∀ s before more, more = [] ∨ fault? (x s) ≠ some .inputExhausted →
    x (s.within before more) = mapState (·.within before more) (x s)

theorem IsBlind.console_eq {x : Action α} (h : x.IsBlind) (s : State) :
    (endState (x s)).console = s.console := by
  have same : x s = mapState (·.withConsole s.console) (x s) := h s s.console
  rw [same]
  cases x s <;> rfl

theorem IsBlind.isLocal {x : Action α} (h : x.IsBlind) : x.IsLocal where
  suffix s := by simp only [h.console_eq, List.suffix_refl]
  within s before more _ := by
    have same := h.console_eq s
    rw [State.within, h]
    cases eq : x s with
    | ok a t | error e t =>
      rw [eq] at same
      simp only [mapState, State.within, show t.console = s.console from same]

theorem IsLocal.bind {x : Action α} {f : α → Action β} (hx : x.IsLocal) (hf : ∀ a, (f a).IsLocal) :
    IsLocal (x >>= f) where
  suffix s := by
    have first := hx.suffix s
    cases eq : x s with
    | ok a t =>
      rw [eq] at first
      rw [bind_of_ok eq]
      exact ((hf a).suffix t).trans first
    | error e t =>
      rw [eq] at first
      rwa [bind_of_error eq]
  within s before more enough := by
    have first := hx.within s before more
    cases eq : x s with
    | ok a t =>
      rw [eq] at first
      rw [bind_of_ok eq] at enough ⊢
      rw [bind_of_ok (first (.inr nofun))]
      exact (hf a).within t before more enough
    | error e t =>
      rw [eq] at first
      rw [bind_of_error eq] at enough ⊢
      rw [bind_of_error (first enough)]
      rfl

theorem isLocal_read : read.IsLocal where
  suffix s := by
    unfold read Console.read
    cases input : s.console.input with
    | nil => simp [endState, input]
    | cons v rest => exact List.suffix_cons v rest
  within s before more enough := by
    cases input : s.console.input with
    | cons v rest =>
      simp only [read, Console.read, State.within, State.withConsole, Console.within, input, List.cons_append,
        mapState]
    | nil =>
      obtain rfl | enough := enough
      · simp only [read, Console.read, State.within, State.withConsole, Console.within, input,
          List.append_nil, mapState]
      · refine absurd ?_ enough
        simp only [read, Console.read, input, fault?]

theorem isLocal_write (text : String) : (write text).IsLocal where
  suffix s := List.suffix_refl _
  within s before more _ := by
    simp only [write, Console.write, State.within, State.withConsole, Console.within, mapState,
      String.append_assoc]

theorem isLocal_library (f : LibraryFn) : (library m f).IsLocal := by
  cases f with
  | getint | getchar | getdouble => exact isLocal_read.bind fun _ => (isBlind_setTop _).isLocal
  | putint | putdouble => exact isBlind_pop.isLocal.bind fun _ => isLocal_write _
  | putchar | putstr =>
    refine isBlind_pop.isLocal.bind fun _ => ?_
    split
    · exact isLocal_write _
    · exact (isBlind_throw _).isLocal
  | putln => exact isLocal_write _

theorem isLocal_perform (m : Image) (i : Instr) : (perform m i).IsLocal := by
  by_cases op : i.opcode = .callname
  · simp only [perform, op]
    refine (isBlind_operand i).isLocal.bind fun _ => ?_
    split
    · exact isLocal_library _
    · exact (isBlind_throw _).isLocal
  · exact (isBlind_perform op).isLocal

end Action

/-! ### Runs -/

namespace State

variable {m : Image}

theorem fetch_withConsole (m : Image) (s : State) (c : Console) (frames : List Frame) :
    (s.withConsole c).fetch m frames = ((s.fetch m frames).1, (s.fetch m frames).2.withConsole c) := by
  induction frames generalizing s with
  | nil => rfl
  | cons f callers ih =>
    simp only [fetch]
    cases m.instr? f.function f.pc with
    | some i => rfl
    | none => exact ih { s with stack := leave f callers s.stack }

theorem console_fetch (m : Image) (s : State) (frames : List Frame) :
    (s.fetch m frames).2.console = s.console :=
  congrArg (·.2.console) (fetch_withConsole m s s.console frames)

theorem fetch_within (m : Image) (s : State) (before : String) (more : List Int64) :
    (s.within before more).fetch m (s.within before more).frames =
      ((s.fetch m s.frames).1, (s.fetch m s.frames).2.within before more) := by
  rw [within, within, console_fetch]
  exact fetch_withConsole m s _ s.frames

/-- What a run has not read is the end of its input. -/
theorem suffix_of_run {s : State} {limit steps : UInt64} {halt : Halt} (h : s.run m limit steps = some halt) :
    halt.state.console.input <:+ s.console.input := by
  have same {s t : State} {i? : Option Instr} (fetched : s.fetch m s.frames = (i?, t)) :
      t.console = s.console := by
    rw [← console_fetch m s s.frames, fetched]
  fun_induction State.run m limit s steps with
  | case1 s steps t fetched =>
    cases h
    exact same fetched ▸ List.suffix_refl _
  | case2 s steps i t fetched =>
    cases h
    exact same fetched ▸ List.suffix_refl _
  | case3 => cases h
  | case4 s steps i t fetched _ _ u executed ih =>
    have first := (Action.isLocal_perform m i).suffix t
    rw [executed] at first
    exact same fetched ▸ (ih h).trans first
  | case5 s steps i t fetched _ _ e u failed =>
    cases h
    have first := (Action.isLocal_perform m i).suffix t
    rw [failed] at first
    exact same fetched ▸ first

/-- A run does the same with something printed before, and also with more input unless it runs out. -/
theorem run_within {s : State} {limit steps : UInt64} (before : String) (more : List Int64)
    (enough : ∀ halt, s.run m limit steps = some halt → more = [] ∨ halt.outcome ≠ .error .inputExhausted) :
    (s.within before more).run m limit steps = (s.run m limit steps).map fun halt =>
      ⟨halt.outcome, halt.state.within before more, halt.steps⟩ := by
  have fetches {s t : State} {i? : Option Instr} (fetched : s.fetch m s.frames = (i?, t)) :
      (s.within before more).fetch m (s.within before more).frames = (i?, t.within before more) := by
    rw [fetch_within, fetched]
  fun_induction State.run m limit s steps with
  | case1 s steps t fetched =>
    rw [run_of_fetch_none (fetches fetched)]
    rfl
  | case2 s steps i t fetched exceeds =>
    rw [run_of_lt (fetches fetched) exceeds]
    rfl
  | case3 s steps i t fetched within round =>
    rw [run_of_eq_zero (fetches fetched) within round]
    rfl
  | case4 s steps i t fetched within counts u executed ih =>
    have same := (Action.isLocal_perform m i).within t before more (.inr (by simp [executed, Action.fault?]))
    rw [executed] at same
    rw [run_of_ne_zero (fetches fetched) within counts, resume_of_ok same]
    exact ih enough
  | case5 s steps i t fetched within counts e u failed =>
    have same := (Action.isLocal_perform m i).within t before more
      ((enough _ rfl).imp_right fun ne => by rw [failed]; rintro ⟨⟩; exact ne rfl)
    rw [failed] at same
    rw [run_of_ne_zero (fetches fetched) within counts, resume_of_error same]
    rfl

end State

namespace Machine

variable {m : Image} {input more : List Int64} {before : String} {vm : Machine}

theorem start_within (m : Image) (input more : List Int64) (before : String) :
    (State.start m ⟨input, ""⟩).within before more = .start m ⟨input ++ more, before⟩ := by
  simp only [State.start, State.within, State.withConsole, Console.within, String.append_empty]

/-- A run on a console from a run on the part of its input that is read. -/
theorem run_eq_within {halt : Halt} (nonempty : ¬m.functions.isEmpty)
    (console : vm.state.console = ⟨input ++ more, before⟩)
    (eq : (State.start m ⟨input, ""⟩).run m vm.stepLimit 0 = some halt)
    (enough : more = [] ∨ halt.outcome ≠ .error .inputExhausted) :
    vm.run m = some (halt.outcome.map fun _ => halt.state.stack.back?,
      ⟨halt.state.within before more, halt.steps, vm.stepLimit⟩) := by
  have run := State.run_within before more fun other run => by
    cases eq.symm.trans run
    exact enough
  rw [start_within, ← console, eq] at run
  rw [run_of_nonempty nonempty, run]
  rfl

/-- The result of a run, and the state it ends in up to the console, depend on the input alone. The run
prints a text that depends on the input alone behind what was printed before, and leaves the end of its
input. If it does not run out of input, then more input only adds to what it leaves. Under the largest limit a
run may have no result, and then it has none with more input either. -/
theorem run_console (m : Image) (limit : UInt64) (input : List Int64) :
    (∃ result stack globals frames rest text steps, rest <:+ input ∧
      (∀ (vm : Machine) (before : String), vm.stepLimit = limit → vm.state.console = ⟨input, before⟩ →
        vm.run m = some (result, ⟨⟨stack, globals, frames, ⟨rest, before ++ text⟩⟩, steps, limit⟩)) ∧
      (result ≠ .error .inputExhausted → ∀ (vm : Machine) (before : String) (more : List Int64),
        vm.stepLimit = limit → vm.state.console = ⟨input ++ more, before⟩ →
        vm.run m = some (result, ⟨⟨stack, globals, frames, ⟨rest ++ more, before ++ text⟩⟩, steps, limit⟩))) ∨
    limit = noLimit ∧ ∀ (vm : Machine) (before : String) (more : List Int64), vm.stepLimit = limit →
      vm.state.console = ⟨input ++ more, before⟩ → vm.run m = none := by
  by_cases h : m.functions.isEmpty
  · refine .inl ⟨.error (.unknownFunction 0), #[], Array.replicate m.globals.length 0, [], input, "", 0,
      List.suffix_refl _, ?_, fun _ => ?_⟩
    · rintro vm before rfl console
      rw [run_of_isEmpty h, console, String.append_empty]
      rfl
    · rintro vm before more rfl console
      rw [run_of_isEmpty h, console, String.append_empty]
      rfl
  cases eq : (State.start m ⟨input, ""⟩).run m limit 0 with
  | none =>
    refine .inr ⟨State.eq_noLimit_of_run eq, ?_⟩
    rintro vm before more rfl console
    have run := State.run_within before more fun halt run => by cases eq.symm.trans run
    rw [start_within, ← console, eq] at run
    rw [run_of_nonempty h, run]
    rfl
  | some halt =>
    refine .inl ⟨halt.outcome.map fun _ => halt.state.stack.back?, halt.state.stack, halt.state.globals,
      halt.state.frames, halt.state.console.input, halt.state.console.output, halt.steps,
      State.suffix_of_run eq, ?_, fun enough => ?_⟩
    · rintro vm before rfl console
      have whole : vm.state.console = ⟨input ++ [], before⟩ := by rw [console, List.append_nil]
      have run := run_eq_within h whole eq (.inl rfl)
      rw [State.within, Console.within, List.append_nil] at run
      exact run
    · rintro vm before more rfl console
      refine run_eq_within h console eq (.inr fun exhausted => enough ?_)
      rw [exhausted]
      rfl

end Machine

end CZero
