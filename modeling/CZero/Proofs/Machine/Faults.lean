import CZero.Proofs.Machine.Move

/-!
# Faults and the instructions that raise them

Each fault tells what was wrong with one instruction: `Fault.ComesFrom` lists, for each of them, the
instructions that can raise it and what is known of such an instruction and its function. An instruction
raises no other fault (`Action.fails_perform`), and an instruction that fails leaves all active functions
where they were. The step limit is not in the list: no instruction raises it.
-/

namespace CZero

/-- What is known of an instruction that raises a fault while these functions are active. -/
def Fault.ComesFrom (m : Image) (i : Instr) (frames : List Frame) : Fault → Prop
  | .stackUnderflow => True
  | .missingOperand name => i.opcode.hasOperand ∧ i.operand = none ∧ name = i.opcode.mnemonic
  | .invalidAddress _ => i.opcode ∈ [.loca, .arga, .stackalloc, .load64, .store64]
  | .invalidJump target length => i.opcode.isBranch ∧ ∃ offset f callers, i.operand = some offset ∧
      frames = f :: callers ∧ target = Int64.ofNat f.pc + offset ∧ length = m.length f.function ∧
      ∀ pc, index? target = some pc → length < pc
  | .unknownFunction index => i.opcode = .call ∧ i.operand = some index ∧
      ∀ k, index? index = some k → m.functions.length ≤ k
  | .unknownLibraryFn index => i.opcode = .callname ∧ i.operand = some index ∧
      ∀ k, index? index = some k → LibraryFn.all.length ≤ k
  | .divisionByZero => i.opcode = .divi
  | .inputExhausted | .invalidCharacter _ | .notAString _ => i.opcode = .callname
  | .stepLimitExceeded _ => False

namespace Action

variable {α β : Type} {m : Image} {i : Instr} {P : List Frame → Fault → Prop}

/-- A computation that raises only faults that satisfy `P`, and leaves the active functions where they
were if it does. -/
def Fails (P : List Frame → Fault → Prop) (x : Action α) : Prop :=
  ∀ ⦃s e t⦄, x s = .error e t → P s.frames e ∧ t.frames = s.frames

theorem fails_pure (a : α) : Fails P (pure a) := by
  intro _ _ _ h
  cases h

theorem fails_throw {e : Fault} (h : ∀ fs, P fs e) : Fails P (throw e : Action α) := by
  intro _ _ _ eq
  cases eq
  exact ⟨h _, rfl⟩

/-- What follows a computation that keeps the active functions raises its faults with the same ones. -/
theorem Fails.bind {k : Nat} {x : Action α} {f : α → Action β} (hx : x.Fails P) (keeps : x.Keeps k)
    (hf : ∀ ⦃s a t⦄, x s = .ok a t → (f a).Fails P) : Fails P (x >>= f) := by
  intro s e t h
  obtain failed | ⟨a, u, first, rest⟩ := bind_eq_error h
  · exact hx failed
  · obtain ⟨cause, frames⟩ := hf first rest
    have same := (keeps first).1
    exact ⟨same ▸ cause, frames.trans same⟩

theorem fails_push (v : Int64) : (push v).Fails P := by
  rintro _ _ _ ⟨⟩

theorem fails_pushZeros (n : Nat) : (pushZeros n).Fails P := by
  rintro _ _ _ ⟨⟩

theorem fails_write (text : String) : (write text).Fails P := by
  rintro _ _ _ ⟨⟩

theorem fails_pop (h : ∀ fs, P fs .stackUnderflow) : pop.Fails P := by
  intro s e t eq
  unfold pop at eq
  split at eq <;> cases eq
  exact ⟨h _, rfl⟩

theorem fails_setTop (h : ∀ fs, P fs .stackUnderflow) (v : Int64) : (setTop v).Fails P := by
  intro s e t eq
  unfold setTop at eq
  split at eq <;> cases eq
  exact ⟨h _, rfl⟩

theorem fails_read (h : ∀ fs, P fs .inputExhausted) : read.Fails P := by
  intro s e t eq
  unfold read Console.read at eq
  cases input : s.console.input with
  | nil =>
    rw [input] at eq
    cases eq
    exact ⟨h _, rfl⟩
  | cons v rest =>
    rw [input] at eq
    cases eq

theorem fails_frame (h : ∀ fs, P fs .stackUnderflow) : frame.Fails P := by
  intro s e t eq
  unfold frame at eq
  split at eq <;> cases eq
  exact ⟨h _, rfl⟩

theorem fails_load {address : Int64} (h : ∀ fs, P fs (.invalidAddress address)) :
    (load address).Fails P := by
  intro s e t eq
  unfold load at eq
  dsimp only at eq
  split at eq <;> cases eq
  exact ⟨h _, rfl⟩

theorem fails_store {address : Int64} (h : ∀ fs, P fs (.invalidAddress address)) (value : Int64) :
    (store address value).Fails P := by
  intro s e t eq
  unfold store at eq
  split at eq <;> split at eq <;> try split at eq
  all_goals cases eq
  all_goals exact ⟨h _, rfl⟩

theorem fails_operand (h : i.operand = none → ∀ fs, P fs (.missingOperand i.opcode.mnemonic)) :
    (operand i).Fails P := by
  unfold operand
  cases eq : i.operand with
  | some v => exact fails_pure v
  | none => exact fails_throw (h eq)

theorem fails_slotOperand (h : i.operand = none → ∀ fs, P fs (.missingOperand i.opcode.mnemonic))
    (ha : ∀ v fs, P fs (.invalidAddress v)) : (slotOperand i).Fails P := by
  refine (fails_operand h).bind (keeps_operand i) fun s v t _ => ?_
  split
  · exact fails_pure _
  · exact fails_throw (ha v)

theorem fails_binary (h : ∀ fs, P fs .stackUnderflow) (op : Int64 → Int64 → Int64) : (binary op).Fails P :=
  (fails_pop h).bind keeps_pop fun _ _ _ _ => (fails_pop h).bind keeps_pop fun _ _ _ _ => fails_push _

theorem fails_unary (h : ∀ fs, P fs .stackUnderflow) (op : Int64 → Int64) : (unary op).Fails P :=
  (fails_pop h).bind keeps_pop fun _ _ _ _ => fails_push _

theorem fails_divide (h : ∀ fs, P fs .stackUnderflow) (hz : ∀ fs, P fs .divisionByZero) : divide.Fails P := by
  refine (fails_pop h).bind keeps_pop fun _ _ _ _ => (fails_pop h).bind keeps_pop fun _ _ _ _ => ?_
  split
  · exact (fails_throw hz).bind (keeps_throw _ 0) fun _ _ _ _ => fails_push _
  · exact (fails_pure _).bind (keeps_pure _) fun _ _ _ _ => fails_push _

theorem fails_jump (h : ∀ fs, P fs .stackUnderflow) {offset : Int64}
    (hj : ∀ f callers, (∀ pc, index? (Int64.ofNat f.pc + offset) = some pc → m.length f.function < pc) →
      P (f :: callers) (.invalidJump (Int64.ofNat f.pc + offset) (m.length f.function))) :
    (jump m offset).Fails P := by
  intro s e t eq
  unfold jump at eq
  split at eq
  · cases eq
    exact ⟨h _, rfl⟩
  · next f callers frames =>
    dsimp only at eq
    rw [frames]
    split at eq
    · next pc index =>
      split at eq
      · cases eq
      · next beyond =>
        cases eq
        refine ⟨hj f callers fun pc' index' => ?_, frames⟩
        cases index.symm.trans index'
        exact Nat.lt_of_not_le beyond
    · next index =>
      cases eq
      exact ⟨hj f callers fun pc index' => (nomatch index.symm.trans index'), frames⟩

theorem fails_call (h : ∀ fs, P fs .stackUnderflow) {index : Int64}
    (hc : (∀ k, index? index = some k → m.functions.length ≤ k) → ∀ fs, P fs (.unknownFunction index)) :
    (call m index).Fails P := by
  intro s e t eq
  unfold call at eq
  split at eq
  · next missing =>
    cases eq
    refine ⟨hc (fun k hk => ?_) _, rfl⟩
    rw [hk, Option.bind_some, Option.map_eq_none_iff] at missing
    exact List.getElem?_eq_none_iff.1 missing
  · dsimp only at eq
    split at eq <;> cases eq
    exact ⟨h _, rfl⟩

theorem fails_ret : ret.Fails P := by
  intro s e t eq
  unfold ret at eq
  split at eq <;> cases eq

/-- Library functions fail on what they read or print, and where the stack has no argument or result. -/
theorem fails_library (h : ∀ fs, P fs .stackUnderflow) (hi : ∀ fs, P fs .inputExhausted)
    (hc : ∀ code fs, P fs (.invalidCharacter code)) (hs : ∀ global fs, P fs (.notAString global))
    (f : LibraryFn) : (library m f).Fails P := by
  cases f with
  | getint | getchar | getdouble => exact (fails_read hi).bind keeps_read fun _ _ _ _ => fails_setTop h _
  | putint | putdouble => exact (fails_pop h).bind keeps_pop fun _ _ _ _ => fails_write _
  | putchar =>
    refine (fails_pop h).bind keeps_pop fun _ code _ _ => ?_
    split
    · exact fails_write _
    · exact fails_throw (hc code)
  | putstr =>
    refine (fails_pop h).bind keeps_pop fun _ global _ _ => ?_
    split
    · exact fails_write _
    · exact fails_throw (hs global)
  | putln => exact fails_write _

/-- Every fault of an instruction is one that can come from it. -/
theorem fails_perform (m : Image) (i : Instr) : (perform m i).Fails (Fault.ComesFrom m i) := by
  have underflow : ∀ fs, Fault.ComesFrom m i fs .stackUnderflow := fun _ => trivial
  have missing (needs : i.opcode.hasOperand) (none : i.operand = none) (fs : List Frame) :
      Fault.ComesFrom m i fs (.missingOperand i.opcode.mnemonic) := ⟨needs, none, rfl⟩
  cases op : i.opcode with
  | push | globa =>
    simp only [perform, op]
    exact (fails_operand (missing (by rw [op]; rfl))).bind (keeps_operand i) fun _ _ _ _ => fails_push _
  | loca | arga =>
    have address (v : Int64) (fs : List Frame) : Fault.ComesFrom m i fs (.invalidAddress v) := by
      simp [Fault.ComesFrom, op]
    simp only [perform, op]
    exact (fails_slotOperand (missing (by rw [op]; rfl)) address).bind (keeps_slotOperand i) fun _ _ _ _ =>
      (fails_frame underflow).bind keeps_frame fun _ _ _ _ => fails_push _
  | stackalloc =>
    have address (v : Int64) (fs : List Frame) : Fault.ComesFrom m i fs (.invalidAddress v) := by
      simp [Fault.ComesFrom, op]
    simp only [perform, op]
    exact (fails_slotOperand (missing (by rw [op]; rfl)) address).bind (keeps_slotOperand i) fun _ _ _ _ =>
      fails_pushZeros _
  | load64 =>
    have address (v : Int64) (fs : List Frame) : Fault.ComesFrom m i fs (.invalidAddress v) := by
      simp [Fault.ComesFrom, op]
    simp only [perform, op]
    exact (fails_pop underflow).bind keeps_pop fun _ v _ _ =>
      (fails_load (address v)).bind (keeps_load v) fun _ _ _ _ => fails_push _
  | store64 =>
    have address (v : Int64) (fs : List Frame) : Fault.ComesFrom m i fs (.invalidAddress v) := by
      simp [Fault.ComesFrom, op]
    simp only [perform, op]
    exact (fails_pop underflow).bind keeps_pop fun _ _ _ _ =>
      (fails_pop underflow).bind keeps_pop fun _ v _ _ => fails_store (address v) _
  | addi | subi | multi | cmpi =>
    simp only [perform, op]
    exact fails_binary underflow _
  | negi | setlt | setgt =>
    simp only [perform, op]
    exact fails_unary underflow _
  | divi =>
    simp only [perform, op]
    exact fails_divide underflow fun _ => op
  | br =>
    simp only [perform, op]
    refine (fails_operand (missing (by rw [op]; rfl))).bind (keeps_operand i) fun _ v _ read => ?_
    refine fails_jump underflow fun f callers beyond => ?_
    exact ⟨by rw [op]; rfl, v, f, callers, (operand_eq_ok read).1, rfl, rfl, rfl, beyond⟩
  | brtrue | brfalse =>
    simp only [perform, op]
    refine (fails_operand (missing (by rw [op]; rfl))).bind (keeps_operand i) fun _ v _ read =>
      (fails_pop underflow).bind keeps_pop fun _ _ _ _ => ?_
    split
    · refine fails_jump underflow fun f callers beyond => ?_
      exact ⟨by rw [op]; rfl, v, f, callers, (operand_eq_ok read).1, rfl, rfl, rfl, beyond⟩
    · exact fails_pure _
  | call =>
    simp only [perform, op]
    refine (fails_operand (missing (by rw [op]; rfl))).bind (keeps_operand i) fun _ v _ read => ?_
    exact fails_call underflow fun unknown _ => ⟨op, (operand_eq_ok read).1, unknown⟩
  | ret =>
    simp only [perform, op]
    exact fails_ret
  | callname =>
    simp only [perform, op]
    refine (fails_operand (missing (by rw [op]; rfl))).bind (keeps_operand i) fun _ v _ read => ?_
    split
    · exact fails_library underflow (fun _ => op) (fun _ _ => op) (fun _ _ => op) _
    · next unknown =>
      refine fails_throw fun _ => ⟨op, (operand_eq_ok read).1, fun k hk => ?_⟩
      rw [hk, Option.bind_some] at unknown
      exact List.getElem?_eq_none_iff.1 unknown

end Action

end CZero
