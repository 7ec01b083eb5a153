import CZero.Proofs.Machine.Marks

/-!
# Stores go where their marks say

A program is checked if the marks of its functions can be followed to the end, no store is made while other
addresses wait on the stack, and jumps land where nothing is marked. Main statements: every move of a checked
program keeps all marks right, and changes a global only by a store that is marked with it
(`State.Sound.move`). So a global stays as it is once its stores are past (`State.Past.reach`).
-/

namespace CZero

/-! ### Checked programs -/

/-- The marks of all functions can be followed, and jumps land where nothing is marked. Addresses of variables
stay inside the part of the stack that a function has. The function that a program starts in has no jumps. It
may call a function that asks for more values than there are, and the call fails then. -/
structure Image.IsChecked (m : Image) : Prop where
  after : ∀ {k pc i P}, m.instr? k pc = some i → m.marks? k pc = some P →
    (∃ Q, i.after? m (fun _ => true) P = some Q) ∨
    k = 0 ∧ i.opcode = .call ∧ ∀ g, i.index?.bind (m.functions[·]?) = some g → P.length < g.taken
  jumps : ∀ {k pc i v target}, m.instr? k pc = some i → i.opcode.isBranch → i.operand = some v →
    index? (Int64.ofNat (pc + 1) + v) = some target → m.marks? k target = some []
  loca : ∀ {k pc i g n}, m.instr? k pc = some i → i.opcode = .loca → m.functions[k]? = some g →
    i.index? = some n → n ≤ g.localSlots.toNat
  arga : ∀ {k pc i g n}, m.instr? k pc = some i → i.opcode = .arga → m.functions[k]? = some g →
    i.index? = some n → n ≤ g.taken
  straight : ∀ {pc i}, m.instr? 0 pc = some i → i.opcode.isBranch = false

/-- The next step stores a value in a global, as the marks say. -/
def State.Stores (m : Image) (s : State) (n : Nat) (v : Int64) : Prop :=
  ∃ f callers i P, s.frames = f :: callers ∧ m.instr? f.function f.pc = some i ∧ i.opcode = .store64 ∧
    m.marks? f.function f.pc = some (.value :: .global n :: P) ∧ s.stack.back? = some v

/-- What a step does to the globals. -/
def State.Changes (m : Image) (s t : State) : Prop :=
  t.globals = s.globals ∨ ∃ n v, s.Stores m n v ∧ t.globals = s.globals.setIfInBounds n v

/-- The marks at the next place. -/
theorem Image.marks?_succ {m : Image} {k pc : Nat} {i : Instr} (hi : m.instr? k pc = some i) :
    m.marks? k (pc + 1) = (m.marks? k pc).bind fun P => i.after? m (fun _ => true) P := by
  obtain ⟨g, found, at_pc⟩ := Option.bind_eq_some_iff.1 hi
  rw [marks?, marks?, found, Option.bind_some, Option.bind_some, List.take_add_one, at_pc, scan,
    List.foldlM_append]
  simp [scan]

section Exec

variable {m : Image} {s t : State} {f : Frame} {callers : List Frame} {i : Instr} {P Q : List Mark}
  {low high : List Int64}

open State CZero.Action

/-- A calculation. -/
theorem State.Runs.sound_exchange {x : Action Unit} {k n : Nat} (h : s.Runs m f callers P low high)
    (next : m.marks? f.function (f.pc + 1) = some Q) (after : Mark.exchange k n P = some Q)
    (hx : x.Replaces k n)
    (ht : x { s with frames := { f with pc := f.pc + 1 } :: callers } = .ok () t) :
    t.Sound m ∧ s.Changes m t := by
  obtain ⟨frames, globals, -⟩ := hx ht
  obtain ⟨high', runs⟩ := h.exchange hx ht rfl after
  exact ⟨(runs.place (f.pc + 1)).sound frames next, .inl globals⟩

theorem State.Runs.sound_library {g : LibraryFn} (h : s.Runs m f callers P low high)
    (next : m.marks? f.function (f.pc + 1) = some Q) (after : g.after? P = some Q)
    (ht : library m g { s with frames := { f with pc := f.pc + 1 } :: callers } = .ok () t) :
    t.Sound m ∧ s.Changes m t := by
  cases g with
  | getint | getchar =>
    exact h.sound_exchange next after (replaces_read.bind fun v => replaces_setTop v) ht
  | putint | putdouble =>
    exact h.sound_exchange next after (replaces_pop.bind fun v => replaces_write _) ht
  | putchar | putstr =>
    refine h.sound_exchange next after (replaces_pop.bind (l := 0) fun v => ?_) ht
    split
    · exact replaces_write _
    · exact replaces_throw _ 0 0
  | putln => exact h.sound_exchange next after (replaces_write _) ht
  | getdouble =>
    obtain ⟨calm, rfl⟩ : IsCalm P ∧ P = Q := by simpa [LibraryFn.after?] using after
    obtain ⟨v, u, got, rest⟩ := bind_eq_ok ht
    obtain ⟨frames, globals, stack⟩ := replaces_read got
    obtain ⟨_, same, none⟩ := stack s.stack.toList [] (List.append_nil _).symm rfl
    rw [List.length_eq_zero_iff.1 none, List.append_nil] at same
    obtain ⟨frames', globals', top⟩ := setTop_eq_ok rest
    rw [same] at top
    obtain ⟨low', high', runs⟩ := h.overwriteTop calm top
    exact ⟨(runs.place (f.pc + 1)).sound (frames'.trans frames) next, .inl (globals'.trans globals)⟩

theorem State.Runs.sound_push {x : Mark} {v : Int64} (h : s.Runs m f callers P low high)
    (next : m.marks? f.function (f.pc + 1) = some (x :: P)) (holds : x.Holds f.base v)
    (ht : Action.push v { s with frames := { f with pc := f.pc + 1 } :: callers } = .ok () t) :
    t.Sound m ∧ s.Changes m t := by
  cases ht
  have runs := h.push (t := { s with
    stack := s.stack.push v, frames := { f with pc := f.pc + 1 } :: callers }) rfl holds
  exact ⟨(runs.place (f.pc + 1)).sound rfl next, .inl rfl⟩

/-- The address of a variable of the running function. -/
theorem State.Runs.sound_own {k : Nat} (h : s.Runs m f callers P low high)
    (next : m.marks? f.function (f.pc + 1) = some (.own :: P)) (ge : f.base ≤ k) (le : k ≤ s.stack.size)
    (room : t.stack.size ≤ 2 ^ 40)
    (ht : Action.push (Int64.ofNat k) { s with frames := { f with pc := f.pc + 1 } :: callers } = .ok () t) :
    t.Sound m ∧ s.Changes m t := by
  refine h.sound_push next ⟨k, ge, ?_, rfl⟩ ht
  cases ht
  rw [Array.size_push] at room
  dsimp only at room
  omega

/-- A store goes where its mark says. -/
theorem State.Runs.sound_store (h : s.Runs m f callers P low high)
    (frames : s.frames = f :: callers) (hi : m.instr? f.function f.pc = some i) (op : i.opcode = .store64)
    (marks : m.marks? f.function f.pc = some P) (next : m.marks? f.function (f.pc + 1) = some Q)
    (after : Mark.store (fun _ => true) P = some Q)
    (ht : (Action.pop >>= fun value => Action.pop >>= fun address => store address value)
      { s with frames := { f with pc := f.pc + 1 } :: callers } = .ok () t) :
    t.Sound m ∧ s.Changes m t := by
  obtain ⟨v, u, popped, rest⟩ := bind_eq_ok ht
  obtain ⟨top, rfl⟩ := pop_eq_ok popped
  obtain ⟨a, u, popped', last⟩ := bind_eq_ok rest
  obtain ⟨second, rfl⟩ := pop_eq_ok popped'
  unfold Mark.store at after
  split at after
  case h_1 R =>
    obtain ⟨calm, rfl⟩ : IsCalm R ∧ R = Q := by simpa using after
    obtain ⟨-, _, runs⟩ := h.pop (t := { s with stack := s.stack.pop }) top rfl
    obtain ⟨⟨k, own, lt, rfl⟩, _, runs⟩ := runs.pop (t := { s with stack := s.stack.pop.pop }) second rfl
    obtain rfl := store_own_eq_ok lt last
    obtain ⟨low', high', runs⟩ := runs.overwrite (t := { s with
      stack := s.stack.pop.pop.setIfInBounds k v, frames := { f with pc := f.pc + 1 } :: callers })
      calm Array.toList_setIfInBounds own
    exact ⟨(runs.place (f.pc + 1)).sound rfl next, .inl rfl⟩
  case h_2 n R =>
    obtain ⟨calm, rfl⟩ : IsCalm R ∧ R = Q := by simpa using after
    obtain ⟨-, _, runs⟩ := h.pop (t := { s with stack := s.stack.pop }) top rfl
    obtain ⟨⟨lt, rfl⟩, _, runs⟩ := runs.pop (t := { s with
      stack := s.stack.pop.pop, globals := s.globals.setIfInBounds n v,
      frames := { f with pc := f.pc + 1 } :: callers }) second rfl
    obtain rfl := store_global_eq_ok lt last
    exact ⟨(runs.place (f.pc + 1)).sound rfl next,
      .inr ⟨n, v, ⟨f, callers, i, R, frames, hi, op, marks, top⟩, rfl⟩⟩
  case h_3 => cases after

/-- A jump of a function that is not the first. -/
theorem State.Runs.sound_jump {v : Int64} (checked : m.IsChecked) (h : s.Runs m f callers P low high)
    (hi : m.instr? f.function f.pc = some i) (branch : i.opcode.isBranch) (operand : i.operand = some v)
    (ht : jump m v { s with frames := { f with pc := f.pc + 1 } :: callers } = .ok () t) :
    t.Sound m ∧ t.globals = s.globals := by
  obtain ⟨target, landed, rfl⟩ := jump_eq_ok ht rfl
  have ne : f.function ≠ 0 := by
    intro zero
    rw [zero] at hi
    rw [checked.straight hi] at branch
    cases branch
  have runs := h.forget (t := { s with frames := { f with pc := target } :: callers }) ne rfl
  exact ⟨(runs.place target).sound rfl (checked.jumps hi branch operand landed), rfl⟩

/-- A return, or the end of the code. -/
theorem State.Runs.sound_leave (h : s.Runs m f callers P low high) (frames : t.frames = callers)
    (stack : t.stack = State.leave f callers s.stack) : t.Sound m := by
  cases callers with
  | nil =>
    unfold Sound
    rw [frames]
    trivial
  | cons g callers =>
    obtain ⟨P, low, high, marks, runs⟩ := h.leave stack
    exact runs.sound frames marks

theorem State.Runs.sound_call {v : Int64} (checked : m.IsChecked) (h : s.Runs m f callers P low high)
    (hi : m.instr? f.function f.pc = some i) (op : i.opcode = .call)
    (marks : m.marks? f.function f.pc = some P) (operand : i.operand = some v)
    (ht : Action.call m v { s with frames := { f with pc := f.pc + 1 } :: callers } = .ok () t) :
    t.Sound m ∧ t.globals = s.globals := by
  unfold Action.call at ht
  split at ht
  · cases ht
  · next j g found =>
    have index : i.index? = some j ∧ m.functions[j]? = some g := by
      obtain ⟨k, hk, pair⟩ := Option.bind_eq_some_iff.1 found
      obtain ⟨g', hg, eq⟩ := Option.map_eq_some_iff.1 pair
      obtain ⟨rfl, rfl⟩ := Prod.mk.inj eq
      exact ⟨by rw [Instr.index?, operand, Option.bind_some, hk], hg⟩
    dsimp only at ht
    split at ht
    · cases ht
    · next enough =>
      cases ht
      obtain ⟨Q, after⟩ | ⟨zero, -, few⟩ := checked.after hi marks
      · have next : m.marks? f.function (f.pc + 1) = some Q := by
          rw [Image.marks?_succ hi, marks, Option.bind_some, after]
        simp only [Instr.after?, op] at after
        obtain ⟨g', callee, after⟩ := Option.bind_eq_some_iff.1 after
        rw [Image.callee?, index.1, Option.bind_some, Option.ite_none_left_eq_some] at callee
        obtain ⟨ne, eq⟩ := callee
        cases index.2.symm.trans eq
        have runs := (h.place (f.pc + 1)).call index.2 ne after next
          (t := { s with
            stack := s.stack ++ Array.replicate g.localSlots.toNat 0
            frames := .enter j (s.stack.size - g.taken) g.retSlots.toNat g.paramSlots.toNat
              :: { f with pc := f.pc + 1 } :: callers }) rfl
        refine ⟨runs.sound rfl ?_, rfl⟩
        rw [Frame.enter, Image.marks?, index.2]
        rfl
      · -- the first function has nothing but its marked values, and they are too few
        have size : s.stack.size = P.length := by
          rw [← Array.length_toList, h.stack, h.fits.start zero, h.fits.marks.length_eq]
          simp
        have := few g (by rw [index.1, Option.bind_some, index.2])
        unfold Function.taken at this
        exact absurd (show s.stack.size < g.retSlots.toNat + g.paramSlots.toNat by omega) enough

end Exec

/-- One instruction keeps the marks right, and stores where they say. -/
theorem State.Sound.exec {m : Image} {s t : State} {f : Frame} {callers : List Frame} {i : Instr}
    (checked : m.IsChecked) (sound : s.Sound m) (frames : s.frames = f :: callers)
    (hi : m.instr? f.function f.pc = some i)
    (ht : Action.perform m i { s with frames := { f with pc := f.pc + 1 } :: callers } = .ok () t)
    (room : t.stack.size ≤ 2 ^ 40) : t.Sound m ∧ s.Changes m t := by
  unfold Sound at sound
  rw [frames] at sound
  obtain ⟨P, low, high, marks, runs⟩ := sound
  have next : ∀ {Q}, i.after? m (fun _ => true) P = some Q → m.marks? f.function (f.pc + 1) = some Q := by
    intro Q after
    rw [Image.marks?_succ hi, marks, Option.bind_some, after]
  by_cases called : i.opcode = .call
  · simp only [Action.perform, called] at ht
    obtain ⟨v, _, read, rest⟩ := Action.bind_eq_ok ht
    obtain ⟨operand, rfl⟩ := Action.operand_eq_ok read
    obtain ⟨sound, globals⟩ := runs.sound_call checked hi called marks operand rest
    exact ⟨sound, .inl globals⟩
  obtain ⟨Q, after⟩ : ∃ Q, i.after? m (fun _ => true) P = some Q :=
    (checked.after hi marks).resolve_right fun h => called h.2.1
  have next := next after
  cases op : i.opcode with
  | call => exact absurd op called
  | push =>
    simp only [Action.perform, op] at ht
    simp only [Instr.after?, op] at after
    exact runs.sound_exchange next after
      ((Action.replaces_operand i).bind fun v => Action.replaces_push v) ht
  | load64 =>
    simp only [Action.perform, op] at ht
    simp only [Instr.after?, op] at after
    exact runs.sound_exchange next after (Action.replaces_pop.bind fun a =>
      (Action.replaces_load a).bind fun v => Action.replaces_push v) ht
  | negi | setlt | setgt =>
    simp only [Action.perform, op] at ht
    simp only [Instr.after?, op] at after
    exact runs.sound_exchange next after (Action.replaces_unary _) ht
  | addi | subi | multi | cmpi =>
    simp only [Action.perform, op] at ht
    simp only [Instr.after?, op] at after
    exact runs.sound_exchange next after (Action.replaces_binary _) ht
  | divi =>
    simp only [Action.perform, op] at ht
    simp only [Instr.after?, op] at after
    exact runs.sound_exchange next after Action.replaces_divide ht
  | stackalloc =>
    simp only [Action.perform, op] at ht
    simp only [Instr.after?, op] at after
    obtain ⟨n, _, read, rest⟩ := Action.bind_eq_ok ht
    obtain ⟨index, rfl⟩ := Action.slotOperand_eq_ok read
    rw [Instr.index?, index, Option.bind_some] at after
    exact runs.sound_exchange next after (Action.replaces_pushZeros n) rest
  | loca =>
    simp only [Action.perform, op] at ht
    simp only [Instr.after?, op, Option.some.injEq] at after
    subst after
    obtain ⟨n, _, read, rest⟩ := Action.bind_eq_ok ht
    obtain ⟨index, rfl⟩ := Action.slotOperand_eq_ok read
    obtain ⟨g, found, -, -, le⟩ := runs.fits.room
    have bound := checked.loca hi op found index
    refine runs.sound_own (k := f.base + f.retSlots + f.paramSlots + n) next (by omega) ?_ room rest
    have := runs.size_le
    omega
  | arga =>
    simp only [Action.perform, op] at ht
    simp only [Instr.after?, op, Option.some.injEq] at after
    subst after
    obtain ⟨n, _, read, rest⟩ := Action.bind_eq_ok ht
    obtain ⟨index, rfl⟩ := Action.slotOperand_eq_ok read
    obtain ⟨g, found, ret, params, le⟩ := runs.fits.room
    have bound := checked.arga hi op found index
    unfold Function.taken at bound
    refine runs.sound_own (k := f.base + n) next (by omega) ?_ room rest
    have := runs.size_le
    omega
  | globa =>
    simp only [Action.perform, op] at ht
    simp only [Instr.after?, op] at after
    obtain ⟨v, _, read, rest⟩ := Action.bind_eq_ok ht
    obtain ⟨operand, rfl⟩ := Action.operand_eq_ok read
    obtain ⟨n, index, marked⟩ := Option.bind_eq_some_iff.1 after
    obtain ⟨lt, eq⟩ := Option.ite_none_right_eq_some.1 marked
    cases eq
    rw [Instr.index?, operand, Option.bind_some] at index
    exact runs.sound_push next ⟨lt, by rw [eq_ofNat_of_index? index]⟩ rest
  | store64 =>
    simp only [Action.perform, op] at ht
    simp only [Instr.after?, op] at after
    exact runs.sound_store frames hi op marks next after ht
  | br =>
    simp only [Action.perform, op] at ht
    obtain ⟨v, _, read, rest⟩ := Action.bind_eq_ok ht
    obtain ⟨operand, rfl⟩ := Action.operand_eq_ok read
    obtain ⟨sound, globals⟩ := runs.sound_jump checked hi (by rw [op]; rfl) operand rest
    exact ⟨sound, .inl globals⟩
  | brtrue | brfalse =>
    simp only [Action.perform, op] at ht
    simp only [Instr.after?, op] at after
    obtain ⟨v, _, read, rest⟩ := Action.bind_eq_ok ht
    obtain ⟨operand, rfl⟩ := Action.operand_eq_ok read
    obtain ⟨w, _, popped, last⟩ := Action.bind_eq_ok rest
    obtain ⟨_, rfl⟩ := Action.pop_eq_ok popped
    obtain ⟨_, runs⟩ := runs.exchange Action.replaces_pop popped rfl after
    split at last
    · obtain ⟨sound, globals⟩ := runs.sound_jump (s := { s with
        stack := s.stack.pop, frames := { f with pc := f.pc + 1 } :: callers }) checked hi
        (by rw [op]; rfl) operand last
      exact ⟨sound, .inl globals⟩
    · cases last
      exact ⟨(runs.place (f.pc + 1)).sound rfl next, .inl rfl⟩
  | callname =>
    simp only [Action.perform, op] at ht
    simp only [Instr.after?, op] at after
    obtain ⟨v, _, read, rest⟩ := Action.bind_eq_ok ht
    obtain ⟨operand, rfl⟩ := Action.operand_eq_ok read
    obtain ⟨g, found, marked⟩ := Option.bind_eq_some_iff.1 after
    rw [Instr.index?, operand, Option.bind_some] at found
    rw [found] at rest
    exact runs.sound_library next marked rest
  | ret =>
    simp only [Action.perform, op] at ht
    rw [Action.ret_eq_ok ht rfl]
    exact ⟨runs.sound_leave rfl rfl, .inl rfl⟩

namespace State

variable {m : Image} {s t : State} {n : Nat}

/-- One move keeps the marks right, and changes the globals at most by a store that they name. -/
theorem Sound.move (checked : m.IsChecked) (sound : s.Sound m) (move : Move m s t)
    (room : t.stack.size ≤ 2 ^ 40) : t.Sound m ∧ s.Changes m t := by
  cases move with
  | exec frames hi ht => exact sound.exec checked frames hi ht room
  | leave frames hi =>
    unfold Sound at sound
    rw [frames] at sound
    obtain ⟨P, low, high, -, runs⟩ := sound
    exact ⟨runs.sound_leave rfl rfl, .inl rfl⟩

/-- What every move preserves holds in all states that a run comes to, as long as there is room. -/
theorem Reach.preserves {I : State → Prop}
    (step : ∀ {s t}, I s → Move m s t → t.stack.size ≤ 2 ^ 40 → I t) (reach : Reach m n s t)
    (roomy : Roomy m n s) (h : I s) : I t := by
  induction reach with
  | refl => exact h
  | @exec n s u t f callers i frames hi ht _ ih =>
    have one : Reach m 1 s u := .exec frames hi ht .refl
    have later : Roomy m n u := Roomy.reach (by rwa [Nat.add_comm] at roomy) one
    exact ih later (step h (.exec frames hi ht) later.size_le)
  | @leave n s t f callers frames hi _ ih =>
    have later := Roomy.reach (n := 0) (by rwa [Nat.zero_add]) (.leave frames hi .refl)
    exact ih later (step h (.leave frames hi) later.size_le)

/-- The function that a program starts in has come past a place. -/
def Past (place : Nat) (s : State) : Prop :=
  ∀ f ∈ s.frames, f.function = 0 → place < f.pc

/-- It does not come back. -/
theorem Past.move {place : Nat} (checked : m.IsChecked) (past : s.Past place) (move : Move m s t)
    (sound : t.Sound m) : t.Past place := by
  cases move with
  | leave frames hi => exact fun g mem => past g (frames ▸ List.mem_cons_of_mem _ mem)
  | @exec _ f callers i frames hi ht =>
    have waits : ∀ g ∈ callers, g.function = 0 → place < g.pc :=
      fun g mem => past g (frames ▸ List.mem_cons_of_mem _ mem)
    have next : f.function = 0 → place < f.pc + 1 :=
      fun zero => Nat.lt_succ_of_lt (past f (frames ▸ List.mem_cons_self) zero)
    obtain ⟨jumps, v, pc, -, -, after⟩ | ⟨-, after | ⟨g, after⟩ | after⟩ := Action.perform_frames ht rfl
    · unfold Past
      rw [after]
      refine List.forall_mem_cons.2 ⟨fun zero => ?_, waits⟩
      rw [show f.function = 0 from zero] at hi
      have branch : i.opcode.isBranch = true := by
        cases op : i.opcode with
        | br | brtrue | brfalse => rfl
        | _ => simp [Instr.jumps, op] at jumps
      rw [checked.straight hi] at branch
      cases branch
    · unfold Past
      rw [after]
      exact List.forall_mem_cons.2 ⟨next, waits⟩
    · unfold Sound at sound
      rw [after] at sound
      obtain ⟨_, _, _, -, runs⟩ := sound
      unfold Past
      rw [after]
      exact List.forall_mem_cons.2 ⟨fun zero => (List.cons_ne_nil _ _ (runs.root zero)).elim,
        List.forall_mem_cons.2 ⟨next, waits⟩⟩
    · unfold Past
      rw [after]
      exact waits

/-- A global stays as it is if only the first function stores there, and has come past all such stores. -/
theorem Past.reach {place k : Nat} {v : Option Int64} (checked : m.IsChecked)
    (only : ∀ {j pc i P}, m.instr? j pc = some i → i.opcode = .store64 →
      m.marks? j pc = some (.value :: .global k :: P) → j = 0 ∧ pc ≤ place)
    (reach : Reach m n s t) (roomy : Roomy m n s) (sound : s.Sound m) (past : s.Past place)
    (value : s.globals[k]? = v) : t.globals[k]? = v := by
  have all : t.Sound m ∧ t.Past place ∧ t.globals[k]? = v := by
    refine reach.preserves (I := fun u => u.Sound m ∧ u.Past place ∧ u.globals[k]? = v) ?_ roomy
      ⟨sound, past, value⟩
    rintro s t ⟨sound, past, value⟩ move room
    obtain ⟨sound', changes⟩ := Sound.move checked sound move room
    refine ⟨sound', past.move checked move sound', ?_⟩
    obtain same | ⟨k', w, ⟨f, callers, i, P, frames, hi, op, marks, -⟩, set⟩ := changes
    · rw [same, value]
    · have ne : k' ≠ k := by
        rintro rfl
        obtain ⟨zero, le⟩ := only hi op marks
        have := past f (frames ▸ List.mem_cons_self) zero
        omega
      rw [set, Array.getElem?_setIfInBounds_ne ne, value]
  exact all.2.2

end State

end CZero
