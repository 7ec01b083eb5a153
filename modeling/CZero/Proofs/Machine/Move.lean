import CZero.Machine.Run
import Mathlib.Logic.Relation

/-!
# Moves of a machine

A run is a sequence of moves: the running function executes its next instruction, or it has none left
and returns. `State.run` follows the moves and counts the instructions.

An active function is named by its depth, the number of functions below it. In one move the running
function goes on at a place that its instruction names, or returns; all others wait.
-/

namespace CZero

/-- How many instructions function `j` has. -/
def Image.length (m : Image) (j : Nat) : Nat :=
  (m.functions[j]?.map (·.body.length)).getD 0

theorem Image.lt_length {m : Image} {j pc : Nat} {i : Instr} (h : m.instr? j pc = some i) :
    pc < m.length j := by
  obtain ⟨f, hf, hi⟩ := Option.bind_eq_some_iff.1 h
  rw [Image.length, hf]
  exact (List.getElem?_eq_some_iff.1 hi).1

theorem Image.instr?_eq_none {m : Image} {j pc : Nat} (h : m.length j ≤ pc) : m.instr? j pc = none := by
  cases found : m.instr? j pc with
  | none => rfl
  | some i => exact absurd (lt_length found) (Nat.not_lt.2 h)

namespace State

variable {m : Image} {s t u : State}

/-- One move. -/
inductive Move (m : Image) : State → State → Prop
  /-- The running function executes its next instruction. -/
  | exec {s t f callers i} : s.frames = f :: callers → m.instr? f.function f.pc = some i →
    Action.perform m i { s with frames := { f with pc := f.pc + 1 } :: callers } = .ok () t → Move m s t
  /-- The code of the running function is used up, and it returns. -/
  | leave {s f callers} : s.frames = f :: callers → m.instr? f.function f.pc = none →
    Move m s { s with stack := leave f callers s.stack, frames := callers }

/-- Some number of moves. -/
abbrev Moves (m : Image) : State → State → Prop :=
  Relation.ReflTransGen (Move m)

/-! ### Fetching follows moves -/

theorem fetch_with_frames (fs callers : List Frame) :
    fetch m { s with frames := fs } callers = fetch m s callers := by
  induction callers generalizing s with
  | nil => rfl
  | cons f callers ih =>
    simp only [fetch]
    cases m.instr? f.function f.pc with
    | some i => rfl
    | none => exact ih (s := { s with stack := leave f callers s.stack })

theorem fetch_of_instr {f : Frame} {callers : List Frame} {i : Instr} (hs : s.frames = f :: callers)
    (hi : m.instr? f.function f.pc = some i) :
    s.fetch m s.frames = (some i, { s with frames := { f with pc := f.pc + 1 } :: callers }) := by
  rw [hs, fetch, hi]

theorem fetch_of_leave {f : Frame} {callers : List Frame} (hs : s.frames = f :: callers)
    (hi : m.instr? f.function f.pc = none) :
    s.fetch m s.frames =
      fetch m { s with stack := leave f callers s.stack, frames := callers } callers := by
  rw [hs, fetch, hi]
  exact (fetch_with_frames (s := { s with stack := leave f callers s.stack }) callers callers).symm

end State

/-! ### What instructions do to the running function -/

namespace Action

variable {α β : Type} {s t : State}

/-- A computation that leaves the active functions alone and adds at most `k` values to the stack. -/
def Keeps (k : Nat) (x : Action α) : Prop :=
  ∀ ⦃s t a⦄, x s = .ok a t → t.frames = s.frames ∧ t.stack.size ≤ s.stack.size + k

theorem keeps_pure (a : α) : Keeps 0 (pure a) := by
  intro s t b h
  cases h
  exact ⟨rfl, Nat.le_refl _⟩

theorem keeps_throw (e : Fault) (k : Nat) : Keeps k (throw e : Action α) := by
  intro _ _ _ h
  cases h

theorem bind_eq_ok {x : Action α} {k : α → Action β} {b : β} (h : (x >>= k) s = .ok b t) :
    ∃ a u, x s = .ok a u ∧ k a u = .ok b t := by
  change EStateM.bind x k s = _ at h
  unfold EStateM.bind at h
  split at h
  · exact ⟨_, _, ‹_›, h⟩
  · cases h

theorem bind_of_ok {x : Action α} {a : α} (h : x s = .ok a t) (f : α → Action β) : (x >>= f) s = f a t := by
  change EStateM.bind x f s = _
  rw [EStateM.bind, h]

theorem bind_of_error {x : Action α} {e : Fault} (h : x s = .error e t) (f : α → Action β) :
    (x >>= f) s = .error e t := by
  change EStateM.bind x f s = _
  rw [EStateM.bind, h]

theorem bind_eq_error {x : Action α} {f : α → Action β} {e : Fault}
    (h : (x >>= f) s = .error e t) : x s = .error e t ∨ ∃ a u, x s = .ok a u ∧ f a u = .error e t := by
  change EStateM.bind x f s = _ at h
  unfold EStateM.bind at h
  split at h
  · exact .inr ⟨_, _, ‹_›, h⟩
  · next failed =>
    cases h
    exact .inl failed

theorem Keeps.bind {k l : Nat} {x : Action α} {f : α → Action β} (hx : x.Keeps k) (hf : ∀ a, (f a).Keeps l) :
    Keeps (k + l) (x >>= f) := by
  intro s t b h
  obtain ⟨a, u, first, rest⟩ := bind_eq_ok h
  obtain ⟨frames, size⟩ := hx first
  obtain ⟨frames', size'⟩ := hf a rest
  exact ⟨frames'.trans frames, by omega⟩

theorem Keeps.mono {k l : Nat} {x : Action α} (h : x.Keeps k) (le : k ≤ l) : x.Keeps l := by
  intro s t a eq
  obtain ⟨frames, size⟩ := h eq
  exact ⟨frames, by omega⟩

theorem keeps_push (v : Int64) : (push v).Keeps 1 := by
  rintro s _ _ ⟨⟩
  exact ⟨rfl, by simp⟩

theorem keeps_pushZeros (n : Nat) : (pushZeros n).Keeps n := by
  rintro s _ _ ⟨⟩
  exact ⟨rfl, by simp⟩

theorem keeps_write (text : String) : (write text).Keeps 0 := by
  rintro s _ _ ⟨⟩
  exact ⟨rfl, Nat.le_refl _⟩

theorem keeps_pop : pop.Keeps 0 := by
  intro s t v h
  unfold pop at h
  split at h <;> cases h
  exact ⟨rfl, by simp⟩

theorem keeps_setTop (v : Int64) : (setTop v).Keeps 0 := by
  intro s t _ h
  unfold setTop at h
  split at h
  · cases h
  · next some =>
    cases h
    have : 0 < s.stack.size := Array.size_pos_iff.2 (by simpa using some)
    exact ⟨rfl, by simp; omega⟩

theorem keeps_read : read.Keeps 0 := by
  intro s t v h
  unfold read at h
  split at h <;> cases h
  exact ⟨rfl, Nat.le_refl _⟩

theorem keeps_frame : frame.Keeps 0 := by
  intro s t f h
  unfold frame at h
  split at h <;> cases h
  exact ⟨rfl, Nat.le_refl _⟩

theorem keeps_load (address : Int64) : (load address).Keeps 0 := by
  intro s t v h
  unfold load at h
  dsimp only at h
  split at h <;> cases h
  exact ⟨rfl, Nat.le_refl _⟩

theorem keeps_store (address value : Int64) : (store address value).Keeps 0 := by
  intro s t _ h
  unfold store at h
  split at h <;> split at h <;> try split at h
  all_goals cases h
  all_goals exact ⟨rfl, by simp⟩

theorem keeps_operand (i : Instr) : (operand i).Keeps 0 := by
  unfold operand
  split
  · exact keeps_pure _
  · exact keeps_throw _ 0

theorem keeps_slotOperand (i : Instr) : (slotOperand i).Keeps 0 := by
  refine (keeps_operand i).bind (l := 0) fun v => ?_
  split
  · exact keeps_pure _
  · exact keeps_throw _ 0

theorem keeps_binary (op : Int64 → Int64 → Int64) : (binary op).Keeps 1 :=
  keeps_pop.bind fun _ => keeps_pop.bind fun _ => keeps_push _

theorem keeps_unary (op : Int64 → Int64) : (unary op).Keeps 1 :=
  keeps_pop.bind fun _ => keeps_push _

theorem keeps_divide : divide.Keeps 1 := by
  refine keeps_pop.bind (l := 1) fun _ => keeps_pop.bind (l := 1) fun _ => ?_
  split
  · exact (keeps_throw _ 0).bind fun _ => keeps_push _
  · exact (keeps_pure _).bind fun _ => keeps_push _

theorem keeps_library (m : Image) (f : LibraryFn) : (library m f).Keeps 0 := by
  cases f with
  | getint | getchar | getdouble => exact keeps_read.bind fun _ => keeps_setTop _
  | putint | putdouble => exact keeps_pop.bind fun _ => keeps_write _
  | putchar | putstr =>
    refine keeps_pop.bind (l := 0) fun _ => ?_
    split
    · exact keeps_write _
    · exact keeps_throw _ 0
  | putln => exact keeps_write _

end Action

/-- How many values an instruction other than a call can add to the stack. -/
def Instr.growth (i : Instr) : Nat :=
  match i.opcode with
  | .stackalloc => (i.operand.bind index?).getD 0
  | _ => 1

/-- Whether an instruction jumps when it is executed on a stack. -/
def Instr.jumps (i : Instr) (stack : Array Int64) : Bool :=
  match i.opcode with
  | .br => true
  | .brtrue => stack.back?.any (· ≠ 0)
  | .brfalse => stack.back?.any (· = 0)
  | _ => false

namespace Action

variable {m : Image} {i : Instr} {s t : State} {f : Frame} {callers : List Frame}

theorem operand_eq_ok {v : Int64} (h : operand i s = .ok v t) : i.operand = some v ∧ s = t := by
  unfold operand at h
  cases eq : i.operand with
  | none =>
    rw [eq] at h
    cases h
  | some w =>
    rw [eq] at h
    cases h
    exact ⟨rfl, rfl⟩

theorem slotOperand_eq_ok {n : Nat} (h : slotOperand i s = .ok n t) :
    i.operand.bind index? = some n ∧ s = t := by
  obtain ⟨v, u, read, rest⟩ := bind_eq_ok h
  obtain ⟨hv, rfl⟩ := operand_eq_ok read
  rw [hv, Option.bind_some]
  cases index : index? v with
  | none =>
    rw [index] at rest
    cases rest
  | some k =>
    rw [index] at rest
    cases rest
    exact ⟨rfl, rfl⟩

theorem pop_eq_ok {v : Int64} (h : pop s = .ok v t) :
    s.stack.back? = some v ∧ { s with stack := s.stack.pop } = t := by
  unfold pop at h
  split at h <;> cases h
  exact ⟨‹_›, rfl⟩

theorem jump_eq_ok {offset : Int64} (h : jump m offset s = .ok () t) (hs : s.frames = f :: callers) :
    ∃ pc, index? (Int64.ofNat f.pc + offset) = some pc ∧ t = { s with frames := { f with pc } :: callers } := by
  unfold jump at h
  rw [hs] at h
  dsimp only at h
  split at h
  · split at h <;> cases h
    exact ⟨_, ‹_›, rfl⟩
  · cases h

theorem call_eq_ok {index : Int64} (h : call m index s = .ok () t) :
    ∃ g, t.frames = g :: s.frames ∧
      ∃ f ∈ m.functions, t.stack.size ≤ s.stack.size + f.localSlots.toNat := by
  unfold call at h
  split at h
  · cases h
  · next i f found =>
    dsimp only at h
    split at h
    · cases h
    · obtain ⟨k, -, hk⟩ := Option.bind_eq_some_iff.1 found
      obtain ⟨g, hg, pair⟩ := Option.map_eq_some_iff.1 hk
      obtain ⟨-, rfl⟩ := Prod.mk.inj pair
      obtain ⟨frames, size⟩ := keeps_pushZeros _ h
      exact ⟨_, frames, g, List.mem_of_getElem? hg, size⟩

theorem ret_eq_ok (h : ret s = .ok () t) (hs : s.frames = f :: callers) :
    t = { s with stack := State.leave f callers s.stack, frames := callers } := by
  unfold ret at h
  rw [hs] at h
  cases h
  rfl

/-- Only branches, calls and returns touch the active functions. -/
theorem keeps_perform (branch : i.opcode.isBranch = false) (call : i.opcode ≠ .call)
    (ret : i.opcode ≠ .ret) : (perform m i).Keeps i.growth := by
  unfold perform Instr.growth
  cases op : i.opcode with
  | br | brtrue | brfalse =>
    rw [op] at branch
    cases branch
  | call => exact absurd op call
  | ret => exact absurd op ret
  | push => exact (keeps_operand i).bind fun v => keeps_push v
  | globa => exact (keeps_operand i).bind fun v => keeps_push _
  | loca | arga => exact (keeps_slotOperand i).bind fun v => keeps_frame.bind fun _ => keeps_push _
  | stackalloc =>
    intro s t _ h
    obtain ⟨n, u, read, rest⟩ := bind_eq_ok h
    obtain ⟨hn, rfl⟩ := slotOperand_eq_ok read
    rw [hn, Option.getD_some]
    exact keeps_pushZeros n rest
  | load64 => exact keeps_pop.bind fun _ => (keeps_load _).bind fun _ => keeps_push _
  | store64 => exact (keeps_pop.bind fun _ => keeps_pop.bind fun _ => keeps_store _ _).mono (Nat.zero_le 1)
  | addi | subi | multi | cmpi => exact keeps_binary _
  | negi | setlt | setgt => exact keeps_unary _
  | divi => exact keeps_divide
  | callname =>
    refine ((keeps_operand i).bind (l := 0) fun v => ?_).mono (Nat.zero_le 1)
    split
    · exact keeps_library m _
    · exact keeps_throw _ 0

/-- Where the running function goes on. An instruction that does not jump leaves it at the next one; a
call puts another function above it. -/
theorem perform_frames (h : perform m i s = .ok () t) (hs : s.frames = f :: callers) :
    (i.jumps s.stack = true ∧ ∃ v pc, i.operand = some v ∧ index? (Int64.ofNat f.pc + v) = some pc ∧
      t.frames = { f with pc } :: callers) ∨
    (i.jumps s.stack = false ∧ (t.frames = f :: callers ∨ (∃ g, t.frames = g :: f :: callers) ∨
      t.frames = callers)) := by
  cases op : i.opcode with
  | br =>
    simp only [perform, op] at h
    obtain ⟨v, _, read, rest⟩ := bind_eq_ok h
    obtain ⟨hv, rfl⟩ := operand_eq_ok read
    obtain ⟨pc, hpc, rfl⟩ := jump_eq_ok rest hs
    exact .inl ⟨by simp [Instr.jumps, op], v, pc, hv, hpc, rfl⟩
  | brtrue | brfalse =>
    simp only [perform, op] at h
    obtain ⟨v, _, read, rest⟩ := bind_eq_ok h
    obtain ⟨hv, rfl⟩ := operand_eq_ok read
    obtain ⟨w, _, popped, last⟩ := bind_eq_ok rest
    obtain ⟨hw, rfl⟩ := pop_eq_ok popped
    split at last
    · next test =>
      obtain ⟨pc, hpc, rfl⟩ := jump_eq_ok last hs
      exact .inl ⟨by simp [Instr.jumps, op, hw, test], v, pc, hv, hpc, rfl⟩
    · next test =>
      cases last
      exact .inr ⟨by simpa [Instr.jumps, op, hw] using test, .inl hs⟩
  | call =>
    simp only [perform, op] at h
    obtain ⟨v, _, read, rest⟩ := bind_eq_ok h
    obtain ⟨-, rfl⟩ := operand_eq_ok read
    obtain ⟨g, ht, -⟩ := call_eq_ok rest
    exact .inr ⟨by simp [Instr.jumps, op], .inr (.inl ⟨g, ht.trans (congrArg _ hs)⟩)⟩
  | ret =>
    simp only [perform, op] at h
    exact .inr ⟨by simp [Instr.jumps, op], .inr (.inr (by rw [ret_eq_ok h hs]))⟩
  | _ =>
    refine .inr ⟨by simp [Instr.jumps, op], .inl ((keeps_perform ?_ ?_ ?_ h).1.trans hs)⟩
    all_goals simp [op, Opcode.isBranch]

end Action

namespace State

variable {m : Image} {s t : State}

/-! ### Active functions -/

/-- The function that is active at depth `d`; the first one is at depth 0. -/
def frame? (s : State) (d : Nat) : Option Frame :=
  s.frames.reverse[d]?

theorem frame?_of_frames {a b : List Frame} {f : Frame} (h : s.frames = a ++ f :: b) :
    s.frame? b.length = some f := by
  simp [frame?, h]

theorem frames_of_frame? {d : Nat} {f : Frame} (h : s.frame? d = some f) :
    ∃ a b, s.frames = a ++ f :: b ∧ b.length = d := by
  obtain ⟨lt, eq⟩ := List.getElem?_eq_some_iff.1 h
  refine ⟨(s.frames.reverse.drop (d + 1)).reverse, (s.frames.reverse.take d).reverse, ?_, ?_⟩
  · rw [← List.reverse_inj, List.reverse_append, List.reverse_cons, List.reverse_reverse,
      List.reverse_reverse, List.append_assoc, ← eq, List.singleton_append, List.getElem_cons_drop,
      List.take_append_drop]
  · rw [List.length_reverse, List.length_take]
    omega

theorem frame?_eq_none {d : Nat} (h : s.frames.length ≤ d) : s.frame? d = none :=
  List.getElem?_eq_none (by simpa using h)

/-- A function that is not the running one waits. -/
theorem Move.frame?_of_waits {d : Nat} {f : Frame} (h : Move m s t) (hf : s.frame? d = some f)
    (waits : s.frames.length ≠ d + 1) : t.frame? d = some f := by
  obtain ⟨a, b, hs, rfl⟩ := frames_of_frame? hf
  cases a with
  | nil => exact absurd (by rw [hs]; rfl) waits
  | cons g a =>
    cases h with
    | leave hs' hi =>
      cases hs.symm.trans hs'
      exact frame?_of_frames rfl
    | exec hs' hi ht =>
      cases hs.symm.trans hs'
      obtain ⟨-, v, pc, -, -, frames⟩ | ⟨-, frames | ⟨g', frames⟩ | frames⟩ :=
        Action.perform_frames ht rfl
      · exact frame?_of_frames (a := _ :: a) frames
      · exact frame?_of_frames (a := _ :: a) frames
      · exact frame?_of_frames (a := _ :: _ :: a) frames
      · exact frame?_of_frames frames

/-- The running function goes on where its instruction says, or returns. -/
theorem Move.frame?_of_runs {d : Nat} {f : Frame} (h : Move m s t) (hf : s.frame? d = some f)
    (runs : s.frames.length = d + 1) :
    t.frame? d = none ∧ m.instr? f.function f.pc = none ∨
    ∃ i, m.instr? f.function f.pc = some i ∧
      ((i.jumps s.stack = true ∧ ∃ v pc, i.operand = some v ∧
        index? (Int64.ofNat (f.pc + 1) + v) = some pc ∧ t.frame? d = some { f with pc }) ∨
      (i.jumps s.stack = false ∧
        (t.frame? d = some { f with pc := f.pc + 1 } ∨ t.frame? d = none))) := by
  obtain ⟨a, b, hs, rfl⟩ := frames_of_frame? hf
  obtain rfl : a = [] := by
    rw [hs, List.length_append, List.length_cons] at runs
    exact List.length_eq_zero_iff.1 (by omega)
  cases h with
  | leave hs' hi =>
    cases hs.symm.trans hs'
    exact .inl ⟨frame?_eq_none (Nat.le_refl _), hi⟩
  | exec hs' hi ht =>
    cases hs.symm.trans hs'
    refine .inr ⟨_, hi, ?_⟩
    obtain ⟨yes, v, pc, hv, hpc, frames⟩ | ⟨no, frames | ⟨g, frames⟩ | frames⟩ :=
      Action.perform_frames ht rfl
    · exact .inl ⟨yes, v, pc, hv, hpc, frame?_of_frames (a := []) frames⟩
    · exact .inr ⟨no, .inl (frame?_of_frames (a := []) frames)⟩
    · exact .inr ⟨no, .inl (frame?_of_frames (a := [g]) frames)⟩
    · exact .inr ⟨no, .inr (frame?_eq_none (Nat.le_of_eq (congrArg _ frames)))⟩

end State

end CZero
