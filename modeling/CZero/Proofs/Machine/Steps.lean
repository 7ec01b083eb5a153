import CZero.Proofs.Codegen.Flow
import CZero.Proofs.Machine.Reach

/-!
# Single steps

What each instruction does, with the stack as a list whose last value is on top.
-/

namespace CZero

/-- A running function, apart from its place in the code. -/
structure Activation where
  function : Nat
  base : Nat
  retSlots : Nat
  paramSlots : Nat
  callers : List Frame

/-- The state in which the function goes on at place `pc`. -/
def Activation.state (a : Activation) (pc : Nat) (stack : List Int64) (globals : Array Int64)
    (console : Console) : State where
  stack := stack.toArray
  globals := globals
  frames := ⟨a.function, pc, a.base, a.retSlots, a.paramSlots⟩ :: a.callers
  console := console

/-- The running function as its callee will find it, to go on at place `pc`. -/
def Activation.frame (a : Activation) (pc : Nat) : Frame :=
  ⟨a.function, pc, a.base, a.retSlots, a.paramSlots⟩

/-- Function `j`, called above `base` values by a function that will go on at place `pc`. -/
def Activation.enter (a : Activation) (pc j base : Nat) (f : Function) : Activation :=
  ⟨j, base, f.retSlots.toNat, f.paramSlots.toNat, a.frame pc :: a.callers⟩

/-- The state in which the function has returned. -/
def Activation.returned (a : Activation) (stack : List Int64) (globals : Array Int64)
    (console : Console) : State :=
  ⟨stack.toArray, globals, a.callers, console⟩

/-! ### Actions -/

namespace Action

variable {α β : Type} {s t : State} {xs : List Int64} {v : Int64}

theorem push_eq (h : s.stack = xs.toArray) (v : Int64) :
    push v s = .ok () { s with stack := (xs ++ [v]).toArray } := by
  rw [push, h, List.push_toArray]

theorem pushZeros_eq (h : s.stack = xs.toArray) (n : Nat) :
    pushZeros n s = .ok () { s with stack := (xs ++ List.replicate n 0).toArray } := by
  rw [pushZeros, h]
  simp

theorem pop_eq (h : s.stack = (xs ++ [v]).toArray) : pop s = .ok v { s with stack := xs.toArray } := by
  simp [pop, h]

theorem setTop_eq (h : s.stack = (xs ++ [v]).toArray) (w : Int64) :
    setTop w s = .ok () { s with stack := (xs ++ [w]).toArray } := by
  simp [setTop, h]

theorem toInt_globalBase : globalBase.toInt = 2 ^ 40 := by
  decide

theorem toInt_ofNat_of_lt {n : Nat} (h : n < 2 ^ 63) : (Int64.ofNat n).toInt = n := by
  rw [← Int64.ofInt_eq_ofNat, Int64.toInt_ofInt, Int.bmod_def]
  simp only [Int64.size]
  omega

theorem index?_ofNat {n : Nat} (h : n < 2 ^ 63) : index? (Int64.ofNat n) = some n :=
  index?_eq_some.2 (toInt_ofNat_of_lt h)

theorem not_globalBase_le {n : Nat} (h : n < 2 ^ 40) : ¬globalBase ≤ Int64.ofNat n := by
  rw [Int64.le_iff_toInt_le, toInt_globalBase, toInt_ofNat_of_lt (by omega)]
  omega

theorem globalBase_le {n : Nat} (h : n < 2 ^ 62) : globalBase ≤ globalBase + Int64.ofNat n := by
  rw [Int64.le_iff_toInt_le, Int64.toInt_add, toInt_globalBase, toInt_ofNat_of_lt (by omega),
    Int.bmod_def]
  split <;> omega

theorem globalBase_add_sub (v : Int64) : globalBase + v - globalBase = v := by
  rw [Int64.add_comm, Int64.add_sub_cancel]

/-- A place on the stack can be read. -/
theorem load_stack {i : Nat} (h : s.stack[i]? = some v) (lt : i < 2 ^ 40) :
    load (Int64.ofNat i) s = .ok v s := by
  rw [load]
  simp only [if_neg (not_globalBase_le lt), index?_ofNat (show i < 2 ^ 63 by omega), Option.bind_some, h]

/-- A global can be read. -/
theorem load_global {i : Nat} (h : s.globals[i]? = some v) (lt : i < 2 ^ 62) :
    load (globalBase + Int64.ofNat i) s = .ok v s := by
  rw [load]
  simp only [if_pos (globalBase_le lt), globalBase_add_sub, index?_ofNat (show i < 2 ^ 63 by omega),
    Option.bind_some, h]

/-- A place on the stack can be written. -/
theorem store_stack {i : Nat} (h : s.stack = xs.toArray) (size : i < xs.length) (lt : i < 2 ^ 40)
    (v : Int64) : store (Int64.ofNat i) v s = .ok () { s with stack := (xs.set i v).toArray } := by
  rw [store]
  simp only [if_neg (not_globalBase_le lt), index?_ofNat (show i < 2 ^ 63 by omega), h]
  rw [dif_pos (by simpa using size)]
  simp

/-- A global can be written. -/
theorem store_global {i : Nat} (size : i < s.globals.size) (lt : i < 2 ^ 62) (v : Int64) :
    store (globalBase + Int64.ofNat i) v s = .ok () { s with globals := s.globals.set i v } := by
  rw [store]
  simp only [if_pos (globalBase_le lt), globalBase_add_sub, index?_ofNat (show i < 2 ^ 63 by omega)]
  rw [dif_pos size]

theorem operand_eq (op : Opcode) (v : Int64) : operand (.withOperand op v) s = .ok v s := rfl

theorem frame_eq {f : Frame} {callers : List Frame} (h : s.frames = f :: callers) : frame s = .ok f s := by
  rw [frame, h]

theorem slotOperand_eq (op : Opcode) {n : Nat} (h : n < 2 ^ 63) :
    slotOperand (.withOperand op (Int64.ofNat n)) s = .ok n s := by
  rw [slotOperand, bind_of_ok (operand_eq op _)]
  simp only [index?_ofNat h]
  rfl

end Action

/-! ### Instructions -/

/-- The next instruction fails. -/
def State.Faults (m : Image) (s : State) (e : Fault) (t : State) : Prop :=
  ∃ f callers i, s.frames = f :: callers ∧ m.instr? f.function f.pc = some i ∧
    Action.perform m i { s with frames := { f with pc := f.pc + 1 } :: callers } = .error e t

namespace State

open CZero.Action

variable {m : Image} {a : Activation} {pc : Nat} {x : List Int64} {v w : Int64} {g : Array Int64}
  {o : Console}

theorem leads_of_perform {i : Instr} {t : State} (hi : m.instr? a.function pc = some i)
    (ht : x.length ≤ 2 ^ 40 → perform m i (a.state (pc + 1) x g o) = .ok () t) :
    Leads m 1 (a.state pc x g o) t :=
  leads_exec rfl hi fun size => ht (by simpa [Activation.state] using size)

theorem leads_push (hi : m.instr? a.function pc = some (.withOperand .push v)) :
    Leads m 1 (a.state pc x g o) (a.state (pc + 1) (x ++ [v]) g o) := by
  refine leads_of_perform hi fun _ => ?_
  change (operand (.withOperand .push v) >>= push) _ = _
  rw [bind_of_ok (operand_eq ..), push_eq rfl]
  rfl

theorem leads_globa (hi : m.instr? a.function pc = some (.withOperand .globa v)) :
    Leads m 1 (a.state pc x g o) (a.state (pc + 1) (x ++ [globalBase + v]) g o) := by
  refine leads_of_perform hi fun _ => ?_
  change (operand (.withOperand .globa v) >>= fun v => push (globalBase + v)) _ = _
  rw [bind_of_ok (operand_eq ..), push_eq rfl]
  rfl

theorem leads_arga {n : Nat} (hi : m.instr? a.function pc = some (.withOperand .arga (Int64.ofNat n)))
    (lt : n < 2 ^ 63) :
    Leads m 1 (a.state pc x g o) (a.state (pc + 1) (x ++ [Int64.ofNat (a.base + n)]) g o) := by
  refine leads_of_perform hi fun _ => ?_
  change (slotOperand (.withOperand .arga (Int64.ofNat n)) >>= fun n =>
    frame >>= fun f => push (Int64.ofNat (f.argAddress n))) _ = _
  rw [bind_of_ok (slotOperand_eq _ lt), bind_of_ok (frame_eq rfl), push_eq rfl]
  rfl

theorem leads_loca {n : Nat} (hi : m.instr? a.function pc = some (.withOperand .loca (Int64.ofNat n)))
    (lt : n < 2 ^ 63) :
    Leads m 1 (a.state pc x g o)
      (a.state (pc + 1) (x ++ [Int64.ofNat (a.base + a.retSlots + a.paramSlots + n)]) g o) := by
  refine leads_of_perform hi fun _ => ?_
  change (slotOperand (.withOperand .loca (Int64.ofNat n)) >>= fun n =>
    frame >>= fun f => push (Int64.ofNat (f.localAddress n))) _ = _
  rw [bind_of_ok (slotOperand_eq _ lt), bind_of_ok (frame_eq rfl), push_eq rfl]
  rfl

theorem leads_stackalloc {n : Nat}
    (hi : m.instr? a.function pc = some (.withOperand .stackalloc (Int64.ofNat n))) (lt : n < 2 ^ 63) :
    Leads m 1 (a.state pc x g o) (a.state (pc + 1) (x ++ List.replicate n 0) g o) := by
  refine leads_of_perform hi fun _ => ?_
  change (slotOperand (.withOperand .stackalloc (Int64.ofNat n)) >>= pushZeros) _ = _
  rw [bind_of_ok (slotOperand_eq _ lt), pushZeros_eq rfl]
  rfl

theorem leads_load_stack {i : Nat} (hi : m.instr? a.function pc = some (.plain .load64))
    (hv : x[i]? = some v) :
    Leads m 1 (a.state pc (x ++ [Int64.ofNat i]) g o) (a.state (pc + 1) (x ++ [v]) g o) := by
  refine leads_of_perform hi fun size => ?_
  have lt : i < x.length := (List.getElem?_eq_some_iff.1 hv).1
  rw [List.length_append, List.length_singleton] at size
  change (pop >>= fun address => load address >>= push) _ = _
  rw [bind_of_ok (pop_eq rfl), bind_of_ok (load_stack (by simpa using hv) (by omega)), push_eq rfl]
  rfl

theorem leads_load_global {i : Nat} (hi : m.instr? a.function pc = some (.plain .load64))
    (hv : g[i]? = some v) (lt : i < 2 ^ 62) :
    Leads m 1 (a.state pc (x ++ [globalBase + Int64.ofNat i]) g o)
      (a.state (pc + 1) (x ++ [v]) g o) := by
  refine leads_of_perform hi fun _ => ?_
  change (pop >>= fun address => load address >>= push) _ = _
  rw [bind_of_ok (pop_eq rfl), bind_of_ok (load_global hv lt), push_eq rfl]
  rfl

theorem leads_store_stack {i : Nat} (hi : m.instr? a.function pc = some (.plain .store64))
    (size : i < x.length) :
    Leads m 1 (a.state pc (x ++ [Int64.ofNat i] ++ [v]) g o)
      (a.state (pc + 1) (x.set i v) g o) := by
  refine leads_of_perform hi fun room => ?_
  simp only [List.length_append, List.length_singleton] at room
  change (pop >>= fun value => pop >>= fun address => store address value) _ = _
  rw [bind_of_ok (pop_eq rfl), bind_of_ok (pop_eq rfl), store_stack rfl size (by omega)]
  rfl

theorem leads_store_global {i : Nat} (hi : m.instr? a.function pc = some (.plain .store64))
    (size : i < g.size) (lt : i < 2 ^ 62) :
    Leads m 1 (a.state pc (x ++ [globalBase + Int64.ofNat i] ++ [v]) g o)
      (a.state (pc + 1) x (g.set i v) o) := by
  refine leads_of_perform hi fun _ => ?_
  change (pop >>= fun value => pop >>= fun address => store address value) _ = _
  rw [bind_of_ok (pop_eq rfl), bind_of_ok (pop_eq rfl)]
  exact store_global (s := a.state (pc + 1) x g o) size lt v

theorem leads_unary {op : Opcode} {f : Int64 → Int64} (hi : m.instr? a.function pc = some (.plain op))
    (ht : perform m (.plain op) = unary f) :
    Leads m 1 (a.state pc (x ++ [v]) g o) (a.state (pc + 1) (x ++ [f v]) g o) := by
  refine leads_of_perform hi fun _ => ?_
  rw [ht]
  change (pop >>= fun v => push (f v)) _ = _
  rw [bind_of_ok (pop_eq rfl), push_eq rfl]
  rfl

theorem leads_binary {op : Opcode} {f : Int64 → Int64 → Int64}
    (hi : m.instr? a.function pc = some (.plain op)) (ht : perform m (.plain op) = binary f) :
    Leads m 1 (a.state pc (x ++ [v] ++ [w]) g o) (a.state (pc + 1) (x ++ [f v w]) g o) := by
  refine leads_of_perform hi fun _ => ?_
  rw [ht]
  change (pop >>= fun rhs => pop >>= fun lhs => push (f lhs rhs)) _ = _
  rw [bind_of_ok (pop_eq rfl), bind_of_ok (pop_eq rfl), push_eq rfl]
  rfl

/-- A jump goes where its offset says. -/
theorem jump_eq {n : Int} {target : Nat} (ht : (target : Int) = pc + n) (le : target ≤ m.length a.function)
    (small : target < 2 ^ 63) :
    jump m (Int64.ofInt n) (a.state pc x g o) = .ok () (a.state target x g o) := by
  have eq : index? (Int64.ofNat pc + Int64.ofInt n) = some target := by
    rw [index?_eq_some, toInt_ofNat_add_ofInt, ← ht, Int.bmod_def]
    split <;> omega
  unfold jump
  dsimp only [Activation.state]
  rw [eq]
  exact if_pos le

theorem leads_jump {n : Int} {target : Nat} (hi : m.instr? a.function pc = some (jumpBy n))
    (ht : (target : Int) = pc + 1 + n) (le : target ≤ m.length a.function) (small : target < 2 ^ 63) :
    Leads m 1 (a.state pc x g o) (a.state target x g o) := by
  refine leads_of_perform hi fun _ => ?_
  change (operand (.withOperand .br (Int64.ofInt n)) >>= jump m) _ = _
  rw [bind_of_ok (operand_eq ..), jump_eq (by omega) le small]

/-- A conditional branch skips one instruction if it is taken. -/
theorem leads_branch {op : Opcode} (hi : m.instr? a.function pc = some (.withOperand op 1))
    (cond : op.isConditional) (le : pc + 2 ≤ m.length a.function) (small : pc + 2 < 2 ^ 63) :
    Leads m 1 (a.state pc (x ++ [v]) g o)
      (a.state (if (op = .brtrue ↔ v ≠ 0) then pc + 2 else pc + 1) x g o) := by
  have taken : jump m 1 (a.state (pc + 1) x g o) = .ok () (a.state (pc + 2) x g o) :=
    jump_eq (n := 1) (by omega) le small
  refine leads_of_perform hi fun _ => ?_
  cases op with
  | brtrue =>
    change (operand (.withOperand .brtrue 1) >>= fun offset => pop >>= fun v =>
      if v ≠ 0 then jump m offset else pure ()) _ = _
    rw [bind_of_ok (operand_eq ..), bind_of_ok (pop_eq rfl)]
    by_cases h : v = 0
    · simp [h]
      rfl
    · simp only [h, ne_eq, not_false_eq_true, if_true]
      exact taken
  | brfalse =>
    change (operand (.withOperand .brfalse 1) >>= fun offset => pop >>= fun v =>
      if v = 0 then jump m offset else pure ()) _ = _
    rw [bind_of_ok (operand_eq ..), bind_of_ok (pop_eq rfl)]
    by_cases h : v = 0
    · simp only [h, if_true]
      simp only [ne_eq, not_true_eq_false, reduceCtorEq, if_true]
      exact taken
    · simp [h]
      rfl
  | _ => cases cond

/-- A call takes the result slots and the arguments, and adds the local variables. -/
theorem leads_call {j : Nat} {f : Function} {zs args : List Int64}
    (hi : m.instr? a.function pc = some (.withOperand .call (Int64.ofNat j)))
    (hf : m.functions[j]? = some f) (lt : j < 2 ^ 63) (hz : zs.length = f.retSlots.toNat)
    (ha : args.length = f.paramSlots.toNat) :
    Leads m 1 (a.state pc (x ++ zs ++ args) g o)
      ((a.enter (pc + 1) j x.length f).state 0
        (x ++ zs ++ args ++ List.replicate f.localSlots.toNat 0) g o) := by
  refine leads_of_perform hi fun _ => ?_
  change (operand (.withOperand .call (Int64.ofNat j)) >>= call m) _ = _
  rw [bind_of_ok (operand_eq ..), call, index?_ofNat lt, Option.bind_some, hf, Option.map_some]
  have size : (a.state (pc + 1) (x ++ zs ++ args) g o).stack.size =
      x.length + (f.retSlots.toNat + f.paramSlots.toNat) := by
    simp [Activation.state, hz, ha]
  dsimp only
  rw [size, if_neg (by omega), Nat.add_sub_cancel, pushZeros_eq rfl]
  rfl

theorem leave_eq {f : Frame} {callers : List Frame} {y : List Int64} (ne : callers ≠ [])
    (size : x.length = f.base + f.retSlots) : leave f callers (x ++ y).toArray = x.toArray := by
  rw [leave, if_neg (by simpa using ne), ← size]
  simp

/-- A `ret` drops all but the result. -/
theorem leads_ret {y : List Int64} (hi : m.instr? a.function pc = some (.plain .ret))
    (ne : a.callers ≠ []) (size : x.length = a.base + a.retSlots) :
    Leads m 1 (a.state pc (x ++ y) g o) (a.returned x g o) := by
  refine leads_of_perform hi fun _ => ?_
  change ret (a.state (pc + 1) (x ++ y) g o) = _
  unfold ret
  dsimp only [Activation.state]
  rw [leave_eq ne size]
  rfl

/-- So does the end of the code. -/
theorem leads_end {y : List Int64} (hi : m.instr? a.function pc = none)
    (ne : a.callers ≠ []) (size : x.length = a.base + a.retSlots) :
    Leads m 0 (a.state pc (x ++ y) g o) (a.returned x g o) := by
  have leads := leads_leave (s := a.state pc (x ++ y) g o) rfl hi
  dsimp only [Activation.state] at leads
  rwa [leave_eq ne size] at leads

end State

end CZero
