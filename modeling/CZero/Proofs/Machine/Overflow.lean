import CZero.Proofs.Image.Compact
import CZero.Proofs.Machine.Contract
import CZero.Proofs.Machine.Range
import CZero.Proofs.Machine.Steps

/-!
# No number leaves its type

Addresses, lengths and places in the code are numbers of 64 bits. A machine can be built to stop when one
of them leaves its type, or to let it wrap around. `Machine.runIn` is the machine in one of these builds: it
computes each such number anew, with all the sums on the way.

In an image that was read every step adds fewer than `2 ^ 32` values to the stack. So after `n` steps the
stack and the slots of every active function end below `n * 2 ^ 32`:

    result | parameters | locals | working values | result | parameters | locals | ...
    base                                                                ≤ n * 2³²

With at most `2 ^ 30` steps all sums stay far below their bounds. Main statement (`Machine.run_fits`): no
number that a run computes leaves its type, and so both builds do what the machine does.
-/

namespace CZero

/-! ### Builds -/

/-- What happens to a number that leaves its type. -/
inductive Build where
  /-- The machine stops. -/
  | checked
  /-- The number wraps around. -/
  | wrapping

namespace Build

/-- A number as an unsigned one of 64 bits. -/
def nat (b : Build) (n : Nat) : Option Nat :=
  match b with
  | .checked => if n < 2 ^ 64 then some n else none
  | .wrapping => some (n % 2 ^ 64)

/-- A number as a signed one of 64 bits. -/
def int (b : Build) (z : Int) : Option Int64 :=
  match b with
  | .checked => if -2 ^ 63 ≤ z ∧ z < 2 ^ 63 then some (Int64.ofInt z) else none
  | .wrapping => some (Int64.ofInt z)

theorem nat_of_lt (b : Build) {n : Nat} (h : n < 2 ^ 64) : b.nat n = some n := by
  cases b with
  | checked => exact if_pos h
  | wrapping => exact congrArg some (Nat.mod_eq_of_lt h)

theorem int_of_fits (b : Build) {z : Int} (low : -2 ^ 63 ≤ z) (high : z < 2 ^ 63) :
    b.int z = some (Int64.ofInt z) := by
  cases b with
  | checked => exact if_pos ⟨low, high⟩
  | wrapping => rfl

end Build

/-- A computation of a build. It has no result if the build stops. -/
abbrev Attempt (α : Type) : Type :=
  ExceptT Fault (StateT State Option) α

namespace Attempt

variable {α β : Type}

/-- A computation without arithmetic that could overflow. -/
def lift (x : Action α) : Attempt α := fun s =>
  match x s with
  | .ok a t => some (.ok a, t)
  | .error e t => some (.error e, t)

/-- The result of arithmetic. -/
def compute (r : Option α) : Attempt α := fun s =>
  r.map fun a => (.ok a, s)

/-- A stack that is made shorter, or longer by zeros. -/
def resized (stack : Array Int64) (size : Nat) : Array Int64 :=
  stack.shrink size ++ Array.replicate (size - stack.size) 0

/-- Pushes zeros. -/
def pushZeros (b : Build) (n : Nat) : Attempt Unit := fun s => do
  let size ← b.nat (s.stack.size + n)
  return (.ok (), { s with stack := resized s.stack size })

/-- The value of the global `slot`, which the program has named by an address. -/
def loadGlobal (address slot : Int64) : Action Int64 := fun s =>
  match (index? slot).bind (s.globals[·]?) with
  | some v => .ok v s
  | none => .error (.invalidAddress address) s

/-- The value at an address. -/
def load (b : Build) (address : Int64) : Attempt Int64 :=
  if globalBase ≤ address then do
    let slot ← compute (b.int (address.toInt - globalBase.toInt))
    lift (loadGlobal address slot)
  else lift (Action.load address)

/-- Stores a value in the global `slot`, which the program has named by an address. -/
def storeGlobal (address slot value : Int64) : Action Unit := fun s =>
  match index? slot with
  | some i =>
    if h : i < s.globals.size then .ok () { s with globals := s.globals.set i value }
    else .error (.invalidAddress address) s
  | none => .error (.invalidAddress address) s

/-- Stores a value at an address. -/
def store (b : Build) (address value : Int64) : Attempt Unit :=
  if globalBase ≤ address then do
    let slot ← compute (b.int (address.toInt - globalBase.toInt))
    lift (storeGlobal address slot value)
  else lift (Action.store address value)

/-- Goes on at place `target` of the running function. -/
def goTo (m : Image) (target : Int64) : Action Unit := fun s =>
  match s.frames with
  | [] => .error .stackUnderflow s
  | f :: callers =>
    match index? target with
    | some pc =>
      if pc ≤ m.length f.function then .ok () { s with frames := { f with pc } :: callers }
      else .error (.invalidJump target (m.length f.function)) s
    | none => .error (.invalidJump target (m.length f.function)) s

/-- Goes on at another place of the running function. -/
def jump (b : Build) (m : Image) (offset : Int64) : Attempt Unit := do
  let f ← lift Action.frame
  let target ← compute (b.int ((Int64.ofNat f.pc).toInt + offset.toInt))
  lift (goTo m target)

/-- Starts a function. -/
def call (b : Build) (m : Image) (index : Int64) : Attempt Unit := fun s =>
  match (index? index).bind fun i => m.functions[i]?.map fun f => (i, f) with
  | none => some (.error (.unknownFunction index), s)
  | some (i, f) => do
    let taken ← b.nat (f.retSlots.toNat + f.paramSlots.toNat)
    if s.stack.size < taken then some (.error .stackUnderflow, s)
    else
      let frame := Frame.enter i (s.stack.size - taken) f.retSlots.toNat f.paramSlots.toNat
      pushZeros b f.localSlots.toNat { s with frames := frame :: s.frames }

/-- What a function leaves of the stack. -/
def leave (b : Build) (f : Frame) (callers : List Frame) (stack : Array Int64) : Option (Array Int64) :=
  if callers.isEmpty then some stack
  else do
    let size ← b.nat (f.base + f.retSlots)
    return stack.shrink size

/-- Ends the running function. -/
def ret (b : Build) : Attempt Unit := fun s =>
  match s.frames with
  | [] => some (.ok (), s)
  | f :: callers => do
    let stack ← leave b f callers s.stack
    return (.ok (), { s with stack, frames := callers })

/-- Executes one instruction. -/
def perform (b : Build) (m : Image) (i : Instr) : Attempt Unit :=
  match i.opcode with
  | .loca => do
    let index ← lift (Action.slotOperand i)
    let f ← lift Action.frame
    let params ← compute (b.nat (f.base + f.retSlots))
    let locals ← compute (b.nat (params + f.paramSlots))
    let address ← compute (b.nat (locals + index))
    lift (Action.push (Int64.ofNat address))
  | .arga => do
    let index ← lift (Action.slotOperand i)
    let f ← lift Action.frame
    let address ← compute (b.nat (f.base + index))
    lift (Action.push (Int64.ofNat address))
  | .globa => do
    let slot ← lift (Action.operand i)
    let address ← compute (b.int (globalBase.toInt + slot.toInt))
    lift (Action.push address)
  | .stackalloc => do pushZeros b (← lift (Action.slotOperand i))
  | .load64 => do lift (Action.push (← load b (← lift Action.pop)))
  | .store64 => do
    let value ← lift Action.pop
    let address ← lift Action.pop
    store b address value
  | .br => do jump b m (← lift (Action.operand i))
  | .brfalse => do
    let offset ← lift (Action.operand i)
    if (← lift Action.pop) = 0 then jump b m offset
  | .brtrue => do
    let offset ← lift (Action.operand i)
    if (← lift Action.pop) ≠ 0 then jump b m offset
  | .call => do call b m (← lift (Action.operand i))
  | .ret => ret b
  | _ => lift (Action.perform m i)

end Attempt

namespace State

/-- Takes the next instruction, like `fetch`. -/
def fetchIn (b : Build) (m : Image) (s : State) : List Frame → Option (Option Instr × State)
  | [] => some (none, { s with frames := [] })
  | f :: callers =>
    match m.instr? f.function f.pc with
    | some i => do
      let pc ← b.nat (f.pc + 1)
      return (some i, { s with frames := { f with pc } :: callers })
    | none => do
      let stack ← Attempt.leave b f callers s.stack
      fetchIn b m { s with stack } callers

/-- Runs a program, like `runFor`. -/
def runIn (b : Build) (m : Image) (s : State) (steps : Nat) : Nat → Option Halt
  | 0 => do
    match ← s.fetchIn b m s.frames with
    | (none, s) => return ⟨.ok (), s, .ofNat steps⟩
    | (some _, s) => return ⟨.error (.stepLimitExceeded (.ofNat steps)), s, .ofNat (← b.nat (steps + 1))⟩
  | left + 1 => do
    match ← s.fetchIn b m s.frames with
    | (none, s) => return ⟨.ok (), s, .ofNat steps⟩
    | (some i, s) =>
      let steps ← b.nat (steps + 1)
      match ← Attempt.perform b m i s with
      | (.ok (), s) => s.runIn b m steps left
      | (.error e, s) => return ⟨.error e, s, .ofNat steps⟩

end State

/-- Runs a program from its start, like `run`. There is no result if the machine stops at an overflow. -/
def Machine.runIn (b : Build) (vm : Machine) (m : Image) : Option (Except Fault (Option Int64) × Machine) :=
  let fresh := State.start m vm.state.console
  if m.functions.isEmpty then some (vm.after ⟨.error (.unknownFunction 0), { fresh with frames := [] }, 0⟩)
  else (fresh.runIn b m 0 vm.stepLimit.toNat).map vm.after

/-! ### What an instruction computes -/

/-- A number fits a signed word of 64 bits. -/
def FitsInt (z : Int) : Prop :=
  -2 ^ 63 ≤ z ∧ z < 2 ^ 63

/-- Each number that an instruction computes in a state fits its word, and the addresses that it pushes are not
negative. -/
structure Instr.Fits (m : Image) (i : Instr) (t : State) : Prop where
  globa : i.opcode = .globa → ∀ slot ∈ i.operand,
    FitsInt (globalBase.toInt + slot.toInt) ∧ 0 ≤ (globalBase + slot).toInt
  arga : i.opcode = .arga → ∀ k ∈ i.operand.bind index?, ∀ f ∈ t.frames.head?,
    f.argAddress k < 2 ^ 64 ∧ 0 ≤ (Int64.ofNat (f.argAddress k)).toInt
  loca : i.opcode = .loca → ∀ k ∈ i.operand.bind index?, ∀ f ∈ t.frames.head?,
    f.localAddress k < 2 ^ 64 ∧ 0 ≤ (Int64.ofNat (f.localAddress k)).toInt
  branch : i.opcode.isBranch → ∀ offset ∈ i.operand, ∀ f ∈ t.frames.head?,
    (Int64.ofNat f.pc).toInt = f.pc ∧ FitsInt (f.pc + offset.toInt)
  stackalloc : i.opcode = .stackalloc → ∀ k ∈ i.operand.bind index?, t.stack.size + k < 2 ^ 64
  call : i.opcode = .call → ∀ k ∈ i.operand.bind index?, ∀ g ∈ m.functions[k]?,
    g.retSlots.toNat + g.paramSlots.toNat < 2 ^ 64 ∧ t.stack.size + g.localSlots.toNat < 2 ^ 64
  load : i.opcode = .load64 → ∀ a ∈ t.stack.back?, globalBase ≤ a → FitsInt (a.toInt - globalBase.toInt)
  store : i.opcode = .store64 → ∀ a ∈ t.stack.pop.back?, globalBase ≤ a →
    FitsInt (a.toInt - globalBase.toInt)
  ret : ∀ f ∈ t.frames, f.base + f.retSlots < 2 ^ 64

/-! ### A build that computes what fits -/

namespace Attempt

variable {α β : Type} {s t : State} {b : Build} {m : Image}

/-- In this state a build does what the machine does. -/
def Agrees (x : Attempt α) (y : Action α) (s : State) : Prop :=
  x s = lift y s

theorem agrees_lift (y : Action α) (s : State) : (lift y).Agrees y s := rfl

theorem bind_apply (x : Attempt α) (f : α → Attempt β) (s : State) : (x >>= f) s = match x s with
    | none => none
    | some (.ok a, t) => f a t
    | some (.error e, t) => some (.error e, t) := by
  change Option.bind (x s) _ = _
  match x s with
  | none => rfl
  | some (.ok a, t) => rfl
  | some (.error e, t) => rfl

theorem Agrees.bind {x : Attempt α} {y : Action α} {f : α → Attempt β} {g : α → Action β} (h : x.Agrees y s)
    (next : ∀ a t, y s = .ok a t → (f a).Agrees (g a) t) : (x >>= f).Agrees (y >>= g) s := by
  unfold Agrees at h next ⊢
  rw [bind_apply, h, lift, lift]
  cases first : y s with
  | ok a t =>
    rw [Action.bind_of_ok first]
    exact next a t first
  | error e t => rw [Action.bind_of_error first]

/-- Arithmetic that has a result. -/
theorem Agrees.compute {r : Option α} {a : α} {f : α → Attempt β} {y : Action β} (h : r = some a)
    (next : (f a).Agrees y s) : (compute r >>= f).Agrees y s := by
  unfold Agrees at next ⊢
  rw [bind_apply, Attempt.compute, h]
  exact next

theorem resized_add (stack : Array Int64) (n : Nat) :
    resized stack (stack.size + n) = stack ++ Array.replicate n 0 := by
  have whole : stack.shrink (stack.size + n) = stack := by
    rw [Array.shrink_eq_take, Array.take_eq_extract, Array.extract_eq_self_of_le (Nat.le_add_right ..)]
  rw [resized, whole, Nat.add_sub_cancel_left]

theorem agrees_pushZeros {n : Nat} (fits : s.stack.size + n < 2 ^ 64) :
    (pushZeros b n).Agrees (Action.pushZeros n) s := by
  unfold Agrees pushZeros
  rw [b.nat_of_lt fits, Option.bind_eq_bind, Option.bind_some, resized_add]
  rfl

theorem ofInt_toInt_sub (a c : Int64) : Int64.ofInt (a.toInt - c.toInt) = a - c := by
  rw [Int64.ofInt_sub, Int64.ofInt_toInt, Int64.ofInt_toInt]

theorem ofInt_toInt_add (a c : Int64) : Int64.ofInt (a.toInt + c.toInt) = a + c := by
  rw [Int64.ofInt_add, Int64.ofInt_toInt, Int64.ofInt_toInt]

theorem agrees_load {a : Int64} (fits : globalBase ≤ a → FitsInt (a.toInt - globalBase.toInt)) :
    (load b a).Agrees (Action.load a) s := by
  unfold load
  split
  · next le =>
    refine .compute (b.int_of_fits (fits le).1 (fits le).2) ?_
    have global : Action.load a s = loadGlobal a (a - globalBase) s := by
      let answer (found : Option Int64) : EStateM.Result Fault State Int64 := match found with
        | some v => .ok v s
        | none => .error (.invalidAddress a) s
      exact congrArg answer (if_pos le)
    rw [ofInt_toInt_sub, Agrees, lift, lift, global]
  · exact agrees_lift _ s

theorem agrees_store {a v : Int64} (fits : globalBase ≤ a → FitsInt (a.toInt - globalBase.toInt)) :
    (store b a v).Agrees (Action.store a v) s := by
  unfold store
  split
  · next le =>
    refine .compute (b.int_of_fits (fits le).1 (fits le).2) ?_
    have global : Action.store a v s = storeGlobal a (a - globalBase) v s := if_pos le
    rw [ofInt_toInt_sub, Agrees, lift, lift, global]
  · exact agrees_lift _ s

theorem frame_eq_ok {f : Frame} (h : Action.frame s = .ok f t) : s.frames.head? = some f ∧ s = t := by
  unfold Action.frame at h
  split at h
  · next frames =>
    cases h
    exact ⟨by rw [frames]; rfl, rfl⟩
  · cases h

theorem agrees_jump {offset : Int64} (fits : ∀ f ∈ s.frames.head?, (Int64.ofNat f.pc).toInt = f.pc ∧
    FitsInt (f.pc + offset.toInt)) : (jump b m offset).Agrees (Action.jump m offset) s := by
  cases frames : s.frames with
  | nil =>
    unfold Agrees jump
    rw [bind_apply, lift, lift, Action.frame, Action.jump, frames]
  | cons f callers =>
    obtain ⟨pc, low, high⟩ := fits f (by rw [frames]; rfl)
    unfold Agrees jump
    rw [bind_apply, lift, Action.frame_eq frames]
    refine Agrees.compute (b.int_of_fits (pc.symm ▸ low) (pc.symm ▸ high)) ?_
    rw [ofInt_toInt_add, Agrees, lift, lift, goTo, Action.jump, frames]
    rfl

theorem agrees_call {index : Int64} (fits : ∀ k ∈ index? index, ∀ g ∈ m.functions[k]?,
      g.retSlots.toNat + g.paramSlots.toNat < 2 ^ 64 ∧ s.stack.size + g.localSlots.toNat < 2 ^ 64) :
    (call b m index).Agrees (Action.call m index) s := by
  unfold Agrees call lift Action.call
  cases found : (index? index).bind fun i => m.functions[i]?.map fun f => (i, f) with
  | none => rfl
  | some pair =>
    obtain ⟨i, f⟩ := pair
    obtain ⟨_, hi, found⟩ := Option.bind_eq_some_iff.1 found
    obtain ⟨_, hf, ⟨⟩⟩ := Option.map_eq_some_iff.1 found
    obtain ⟨taken, size⟩ := fits i hi f hf
    dsimp only
    rw [b.nat_of_lt taken, Option.bind_eq_bind, Option.bind_some]
    split
    · rfl
    · exact agrees_pushZeros size

theorem leave_eq {f : Frame} (fits : f.base + f.retSlots < 2 ^ 64) (callers : List Frame) (stack : Array Int64) :
    leave b f callers stack = some (State.leave f callers stack) := by
  unfold leave State.leave
  split
  · rfl
  · rw [b.nat_of_lt fits]
    rfl

theorem agrees_ret (fits : ∀ f ∈ s.frames, f.base + f.retSlots < 2 ^ 64) : (ret b).Agrees Action.ret s := by
  unfold Agrees ret lift Action.ret
  cases frames : s.frames with
  | nil => rfl
  | cons f callers =>
    dsimp only
    rw [leave_eq (fits f (by rw [frames]; exact .head _))]
    rfl

/-- Where all numbers of an instruction fit, a build executes it as the machine does. -/
theorem agrees_perform {i : Instr} (fits : i.Fits m s) : (perform b m i).Agrees (Action.perform m i) s := by
  cases op : i.opcode with
  | loca =>
    simp only [perform, Action.perform, op]
    refine (agrees_lift _ s).bind fun k _ read => ?_
    obtain ⟨hk, rfl⟩ := Action.slotOperand_eq_ok read
    refine (agrees_lift _ s).bind fun f _ found => ?_
    obtain ⟨hf, rfl⟩ := frame_eq_ok found
    have address := (fits.loca op k hk f hf).1
    rw [Frame.localAddress] at address
    exact .compute (b.nat_of_lt (by omega)) (.compute (b.nat_of_lt (by omega))
      (.compute (b.nat_of_lt (by omega)) (agrees_lift _ s)))
  | arga =>
    simp only [perform, Action.perform, op]
    refine (agrees_lift _ s).bind fun k _ read => ?_
    obtain ⟨hk, rfl⟩ := Action.slotOperand_eq_ok read
    refine (agrees_lift _ s).bind fun f _ found => ?_
    obtain ⟨hf, rfl⟩ := frame_eq_ok found
    exact .compute (b.nat_of_lt (fits.arga op k hk f hf).1) (agrees_lift _ s)
  | globa =>
    simp only [perform, Action.perform, op]
    refine (agrees_lift _ s).bind fun slot _ read => ?_
    obtain ⟨hv, rfl⟩ := Action.operand_eq_ok read
    obtain ⟨⟨low, high⟩, -⟩ := fits.globa op slot hv
    refine .compute (b.int_of_fits low high) ?_
    rw [ofInt_toInt_add]
    exact agrees_lift _ s
  | stackalloc =>
    simp only [perform, Action.perform, op]
    refine (agrees_lift _ s).bind fun k _ read => ?_
    obtain ⟨hk, rfl⟩ := Action.slotOperand_eq_ok read
    exact agrees_pushZeros (fits.stackalloc op k hk)
  | load64 =>
    simp only [perform, Action.perform, op]
    refine (agrees_lift _ s).bind fun a _ popped => ?_
    obtain ⟨ha, rfl⟩ := Action.pop_eq_ok popped
    exact (agrees_load (fits.load op a ha)).bind fun v _ _ => agrees_lift _ _
  | store64 =>
    simp only [perform, Action.perform, op]
    refine (agrees_lift _ s).bind fun v _ popped => ?_
    obtain ⟨-, rfl⟩ := Action.pop_eq_ok popped
    refine (agrees_lift _ _).bind fun a _ popped => ?_
    obtain ⟨ha, rfl⟩ := Action.pop_eq_ok popped
    exact agrees_store (fits.store op a ha)
  | br =>
    simp only [perform, Action.perform, op]
    refine (agrees_lift _ s).bind fun offset _ read => ?_
    obtain ⟨hv, rfl⟩ := Action.operand_eq_ok read
    exact agrees_jump (fits.branch (by rw [op]; rfl) offset hv)
  | brtrue | brfalse =>
    simp only [perform, Action.perform, op]
    refine (agrees_lift _ s).bind fun offset _ read => ?_
    obtain ⟨hv, rfl⟩ := Action.operand_eq_ok read
    refine (agrees_lift _ s).bind fun v _ popped => ?_
    obtain ⟨-, rfl⟩ := Action.pop_eq_ok popped
    split
    · exact agrees_jump (fits.branch (by rw [op]; rfl) offset hv)
    · rfl
  | call =>
    simp only [perform, Action.perform, op]
    refine (agrees_lift _ s).bind fun v _ read => ?_
    obtain ⟨hv, rfl⟩ := Action.operand_eq_ok read
    exact agrees_call fun k hk => fits.call op k (by rw [hv]; exact hk)
  | ret =>
    simp only [perform, Action.perform, op]
    exact agrees_ret fits.ret
  | _ =>
    simp only [perform, op]
    exact agrees_lift _ s

end Attempt

/-! ### How high a run can get -/

variable {m : Image}

namespace Image.IsCompact

/-- An operand that counts slots is small. -/
theorem index_lt (h : m.IsCompact) {f : Function} (mem : f ∈ m.functions) {i : Instr} (code : i ∈ f.body)
    (other : i.opcode ≠ .push) (notGlobal : i.opcode ≠ .globa) {k : Nat} (hk : k ∈ i.operand.bind index?) :
    k < 2 ^ 31 := by
  obtain ⟨v, hv, index⟩ := Option.bind_eq_some_iff.1 hk
  have bounds := h.operands f mem i code other v hv
  rw [if_neg notGlobal, index?_eq_some.1 index] at bounds
  omega

/-- So is a place in the code. -/
theorem pc_lt (h : m.IsCompact) {f : Frame} (range : f.InRange m) : f.pc < 2 ^ 32 := by
  have length : m.length f.function < 2 ^ 32 := by
    rw [Image.length, List.getElem?_eq_getElem range.function_lt]
    exact h.bodies _ (List.getElem_mem _)
  exact Nat.lt_of_le_of_lt range.pc_le length

theorem isLight (h : m.IsCompact) : m.IsLight (2 ^ 32) where
  code f mem i code := by
    unfold Instr.growth
    split
    · next op =>
      cases found : i.operand.bind index? with
      | none => exact Nat.zero_le _
      | some k =>
        have := h.index_lt mem code (by rw [op]; decide) (by rw [op]; decide) found
        rw [Option.getD_some]
        omega
    · decide
  locals f _ := Nat.le_of_lt f.localSlots.toNat_lt

end Image.IsCompact

namespace State

variable {s t u : State} {n k : Nat} {i : Instr} {f : Frame} {callers : List Frame}

/-- After `n` steps the stack and the slots of all active functions end below `n * 2 ^ 32`. -/
structure IsLow (m : Image) (n : Nat) (s : State) : Prop where
  stack_le : s.stack.size ≤ n * 2 ^ 32
  frames_le : ∀ f ∈ s.frames, f.base + f.retSlots + f.paramSlots ≤ n * 2 ^ 32
  inRange : s.InRange m

theorem isLow_start (nonempty : ¬m.functions.isEmpty) (console : Console) : IsLow m 0 (start m console) where
  stack_le := Nat.le_refl 0
  frames_le f mem := by
    cases List.mem_singleton.1 mem
    exact Nat.le_refl 0
  inRange := inRange_start nonempty console

namespace IsLow

theorem fetched (h : IsLow m n s) (hs : s.frames = f :: callers) (hi : m.instr? f.function f.pc = some i) :
    IsLow m n { s with frames := { f with pc := f.pc + 1 } :: callers } where
  stack_le := h.stack_le
  frames_le := by
    have all := h.frames_le
    rw [hs, List.forall_mem_cons] at all
    exact List.forall_mem_cons.2 all
  inRange := h.inRange.fetched hs hi

theorem left (h : IsLow m n s) (hs : s.frames = f :: callers) :
    IsLow m n { s with stack := leave f callers s.stack, frames := callers } where
  stack_le := Nat.le_trans (size_leave_le f callers s.stack) h.stack_le
  frames_le g mem := h.frames_le g (hs ▸ .tail f mem)
  inRange := h.inRange.left hs

/-- What one step adds. A function is entered on the stack that its caller has left. -/
theorem performed (light : m.IsLight (2 ^ 32)) (h : IsLow m n s) (hs : s.frames = f :: callers)
    (small : i.growth ≤ 2 ^ 32) (ht : Action.perform m i s = .ok () t) : IsLow m (n + 1) t where
  stack_le := by
    have grown := light.size_perform small hs ht
    have := h.stack_le
    omega
  frames_le := by
    have all := h.frames_le
    have size := h.stack_le
    have higher : n * 2 ^ 32 ≤ (n + 1) * 2 ^ 32 := Nat.mul_le_mul_right _ (Nat.le_succ n)
    replace all : ∀ g ∈ s.frames, g.base + g.retSlots + g.paramSlots ≤ (n + 1) * 2 ^ 32 :=
      fun g mem => Nat.le_trans (all g mem) higher
    obtain ⟨-, g, frames, called⟩ | ⟨-, frames | ⟨pc, -, frames⟩⟩ := Action.perform_frames_range ht hs
    · rw [frames]
      refine List.forall_mem_cons.2 ⟨?_, all⟩
      rw [called.size_eq]
      exact Nat.le_trans size higher
    · rw [hs, List.forall_mem_cons] at all
      rw [frames]
      exact all.2
    · rw [hs, List.forall_mem_cons] at all
      rw [frames]
      exact List.forall_mem_cons.2 all
  inRange := h.inRange.performed hs ht

/-- What a run adds. -/
theorem reach (light : m.IsLight (2 ^ 32)) (h : IsLow m n s) (reach : Reach m k s t) : IsLow m (n + k) t := by
  induction reach generalizing n with
  | refl => exact h
  | @exec k s t u f callers i hs hi ht _ ih =>
    obtain ⟨g, mem, code⟩ := Image.mem_of_instr? hi
    rw [Nat.add_comm k, ← Nat.add_assoc]
    exact ih ((h.fetched hs hi).performed light rfl (light.code g mem i code) ht)
  | leave hs _ _ ih => exact ih (h.left hs)

/-- What an instruction computes in a state that is low enough fits. -/
theorem fits (compact : m.IsCompact) (h : IsLow m n t) (few : n ≤ 2 ^ 30) {g : Function} (mem : g ∈ m.functions)
    (code : i ∈ g.body) : i.Fits m t := by
  have high : n * 2 ^ 32 ≤ 2 ^ 62 := by omega
  have size := h.stack_le
  have slots : ∀ f ∈ t.frames.head?, f.base + f.retSlots + f.paramSlots ≤ n * 2 ^ 32 :=
    fun f hf => h.frames_le f (List.mem_of_mem_head? hf)
  have access (a : Int64) (le : globalBase ≤ a) : FitsInt (a.toInt - globalBase.toInt) := by
    rw [Int64.le_iff_toInt_le] at le
    have base := Action.toInt_globalBase
    have below := a.toInt_lt
    exact ⟨by omega, by omega⟩
  constructor
  case globa =>
    intro op slot hv
    have bounds := compact.operands g mem i code (by rw [op]; decide) slot hv
    rw [if_pos op] at bounds
    have functions := compact.functions
    have base := Action.toInt_globalBase
    have library : (libraryCount : Int) = 8 := rfl
    have sum : FitsInt (globalBase.toInt + slot.toInt) := ⟨by omega, by omega⟩
    refine ⟨sum, ?_⟩
    rw [Int64.toInt_add, Int.bmod_eq_of_le (by omega) (by omega)]
    omega
  case arga =>
    intro op k hk f hf
    have small := compact.index_lt mem code (by rw [op]; decide) (by rw [op]; decide) hk
    have := slots f hf
    have address : f.argAddress k < 2 ^ 63 := by rw [Frame.argAddress]; omega
    rw [Action.toInt_ofNat_of_lt address]
    exact ⟨by omega, by omega⟩
  case loca =>
    intro op k hk f hf
    have small := compact.index_lt mem code (by rw [op]; decide) (by rw [op]; decide) hk
    have := slots f hf
    have address : f.localAddress k < 2 ^ 63 := by rw [Frame.localAddress]; omega
    rw [Action.toInt_ofNat_of_lt address]
    exact ⟨by omega, by omega⟩
  case branch =>
    intro op offset hv f hf
    have bounds := compact.operands g mem i code (by rintro eq; rw [eq] at op; cases op) offset hv
    rw [if_neg (by rintro eq; rw [eq] at op; cases op)] at bounds
    have pc := compact.pc_lt (h.inRange f (List.mem_of_mem_head? hf))
    exact ⟨Action.toInt_ofNat_of_lt (by omega), by omega, by omega⟩
  case stackalloc =>
    intro op k hk
    have small := compact.index_lt mem code (by rw [op]; decide) (by rw [op]; decide) hk
    omega
  case call =>
    intro op k hk f hf
    have := f.retSlots.toNat_lt
    have := f.paramSlots.toNat_lt
    have := f.localSlots.toNat_lt
    exact ⟨by omega, by omega⟩
  case load => exact fun _ a _ => access a
  case store => exact fun _ a _ => access a
  case ret =>
    intro f hf
    have := h.frames_le f hf
    omega

end IsLow

/-! ### Runs of a build -/

theorem IsLow.fetch (compact : m.IsCompact) (h : IsLow m n s) (fetched : s.fetch m s.frames = (some i, t)) :
    IsLow m n t ∧ t.frames ≠ [] ∧ ∃ g ∈ m.functions, i ∈ g.body := by
  obtain ⟨u, f, callers, reach, hs, hi, rfl⟩ := reach_of_fetch fetched
  exact ⟨(h.reach compact.isLight reach).fetched hs hi, List.cons_ne_nil _ _, Image.mem_of_instr? hi⟩

theorem fetchIn_eq (b : Build) {frames : List Frame}
    (fits : ∀ f ∈ frames, f.pc + 1 < 2 ^ 64 ∧ f.base + f.retSlots < 2 ^ 64) (s : State) :
    s.fetchIn b m frames = some (s.fetch m frames) := by
  induction frames generalizing s with
  | nil => rfl
  | cons f callers ih =>
    obtain ⟨first, rest⟩ := List.forall_mem_cons.1 fits
    rw [fetchIn, State.fetch]
    cases m.instr? f.function f.pc with
    | some i =>
      dsimp only
      rw [b.nat_of_lt first.1]
      rfl
    | none =>
      dsimp only
      rw [Attempt.leave_eq first.2]
      exact ih rest _

/-- A build runs a program as the machine does, if it does not take too many steps. -/
theorem runIn_eq (compact : m.IsCompact) (b : Build) {steps left : Nat} (h : IsLow m steps s)
    (few : steps + left ≤ 2 ^ 30) : s.runIn b m steps left = some (s.runFor m (.ofNat steps) left) := by
  have fetches {s : State} {n : Nat} (h : IsLow m n s) (le : n ≤ 2 ^ 30) :
      s.fetchIn b m s.frames = some (s.fetch m s.frames) := by
    refine fetchIn_eq b (fun f mem => ?_) s
    have slots := h.frames_le f mem
    have pc := compact.pc_lt (h.inRange f mem)
    omega
  induction left generalizing s steps with
  | zero =>
    rw [runIn, fetches h (by omega), runFor]
    obtain ⟨_ | i, t⟩ := s.fetch m s.frames
    · rfl
    · dsimp only
      rw [← UInt64.ofNat_one, ← UInt64.ofNat_add]
      simp only [b.nat_of_lt (show steps + 1 < 2 ^ 64 by omega)]
      rfl
  | succ left ih =>
    rw [runIn, fetches h (by omega), runFor]
    rcases fetched : s.fetch m s.frames with ⟨_ | i, t⟩
    · rfl
    · obtain ⟨low, running, g, mem, code⟩ := h.fetch compact fetched
      have performs := Attempt.agrees_perform (b := b) (low.fits compact (by omega) mem code)
      simp only [Option.bind_eq_bind, Option.bind_some, b.nat_of_lt (show steps + 1 < 2 ^ 64 by omega)]
      rw [performs, Attempt.lift]
      cases executed : Action.perform m i t with
      | error e u =>
        simp only [UInt64.ofNat_add]
        rfl
      | ok a u =>
        obtain ⟨f, callers, hs⟩ := List.exists_cons_of_ne_nil running
        have rest := ih (low.performed compact.isLight hs (compact.isLight.code g mem i code) executed) (by omega)
        rw [UInt64.ofNat_add] at rest
        exact rest

end State

namespace Machine

/-- No number overflows when a machine runs an image that was read, whatever its bytes, with a limit of at most
`2 ^ 30` steps. After `n` steps the stack and the slots of all active functions end below `n * 2 ^ 32`. So all
numbers that the next instruction computes fit their words, and a build that stops at an overflow and one that
wraps around both do what the machine does. -/
theorem run_fits {bytes : List UInt8} {m : Image} (read : Image.ofBytes bytes = .ok m) (vm : Machine)
    (few : vm.stepLimit.toNat ≤ 2 ^ 30) :
    (∀ n t, ¬m.functions.isEmpty → State.Reach m n (.start m vm.state.console) t → t.IsLow m n) ∧
    (∀ n i t, n ≤ vm.stepLimit.toNat → vm.Dispatches m n i t → i.Fits m t) ∧
    ∃ r, vm.run m = some r ∧ ∀ b, vm.runIn b m = some r := by
  have compact := Image.isCompact_of_ofBytes read
  have small : vm.stepLimit < noLimit := UInt64.lt_iff_toNat_lt.2 (Nat.lt_of_le_of_lt few (by decide))
  have low {n : Nat} {t : State} (nonempty : ¬m.functions.isEmpty)
      (reach : State.Reach m n (.start m vm.state.console) t) : t.IsLow m n := by
    have reached := (State.isLow_start nonempty vm.state.console).reach compact.isLight reach
    rwa [Nat.zero_add] at reached
  refine ⟨fun n t nonempty reach => low nonempty reach, fun n i t le dispatches => ?_, _,
    run_eq_runFor small m, fun b => ?_⟩
  · obtain ⟨u, f, callers, reach, hs, hi, rfl⟩ := State.reach_of_dispatched? dispatches.dispatched
    obtain ⟨g, mem, code⟩ := Image.mem_of_instr? hi
    exact ((low dispatches.nonempty reach).fetched hs hi).fits compact (Nat.le_trans le few) mem code
  · rw [runIn, runFor]
    split
    · rfl
    · next nonempty =>
      have runs := State.runIn_eq compact b (State.isLow_start nonempty vm.state.console)
        (show 0 + vm.stepLimit.toNat ≤ 2 ^ 30 by omega)
      rw [runs]
      rfl

/-- A function with `2 ^ 32 - 1` local variables, and operands as far from zero as four bytes allow. -/
theorem run_fits_extreme :
    let bytes : List UInt8 := [0x72, 0x30, 0x3b, 0x3e, 0, 0, 0, 1, 0, 0, 0, 0, 0, 0, 0, 1, 0, 0, 0, 0, 0, 0, 0, 0,
      0, 0, 0, 0, 255, 255, 255, 255, 0, 0, 0, 4, 0x0c, 128, 0, 0, 0, 0x0a, 127, 255, 255, 255,
      0x1a, 127, 255, 255, 255, 0x41, 127, 255, 255, 255]
    let m : Image := ⟨[], [⟨0, 0, 0, 0xffffffff, [.withOperand .globa (-2147483657),
      .withOperand .loca 2147483647, .withOperand .stackalloc 2147483647, .withOperand .br 2147483647]⟩]⟩
    let vm := (ofConsole (.ofInput [])).withStepLimit 1073741824
    Image.ofBytes bytes = .ok m ∧ vm.stepLimit.toNat ≤ 2 ^ 30 ∧
    (∃ t, vm.Dispatches m 1 (.withOperand .loca 2147483647) t ∧
      (Instr.withOperand .loca 2147483647).Fits m t) ∧
    ∃ r, vm.run m = some r ∧ ∀ b, vm.runIn b m = some r := by
  intro bytes m vm
  have read : Image.ofBytes bytes = .ok m := by decide +kernel
  have few : vm.stepLimit.toNat ≤ 2 ^ 30 := by decide
  obtain ⟨-, fits, builds⟩ := run_fits read vm few
  have dispatches := dispatches_of_dispatched? vm (m := m) (n := 1) (by decide) rfl
  exact ⟨read, few, ⟨_, dispatches, fits 1 _ _ (by decide) dispatches⟩, builds⟩

end Machine

end CZero
