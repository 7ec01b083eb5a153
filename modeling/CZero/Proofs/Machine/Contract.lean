import CZero.Proofs.Machine.Limit

/-!
# The contract between images and the machine

Three faults say that an image is broken rather than that its program went wrong: an operand is missing,
or an instruction calls a function that does not exist, of the program or of the library. An image admits
an instruction if the instruction cannot raise one of them. Main statement (`Machine.run_not_broken`): no
run of an image that admits all its code ends with one, whatever else the run does.
-/

namespace CZero

/-- Whether a fault says that the image is broken. -/
def Fault.isBroken : Fault → Bool
  | .missingOperand _ | .unknownFunction _ | .unknownLibraryFn _ => true
  | _ => false

/-- An instruction has an operand if it needs one, and calls what exists. -/
structure Image.Admits (m : Image) (i : Instr) : Prop where
  isWellFormed : i.isWellFormed
  call : i.opcode = .call → ∀ v ∈ i.operand, ∃ k, index? v = some k ∧ k < m.functions.length
  callname : i.opcode = .callname → ∀ v ∈ i.operand, ∃ k, index? v = some k ∧ k < LibraryFn.all.length

namespace Action

variable {α : Type} {m : Image}

/-- A computation that never finds the image broken. -/
def Trusts (x : Action α) : Prop :=
  ∀ ⦃s e t⦄, x s = .error e t → e.isBroken = false

/-- An instruction that the image admits never finds the image broken. -/
theorem trusts_perform {i : Instr} (h : m.Admits i) : (perform m i).Trusts := by
  intro s e t failed
  have cause := (fails_perform m i failed).1
  cases e with
  | missingOperand name =>
    obtain ⟨needs, none, -⟩ := cause
    have formed := h.isWellFormed
    rw [Instr.isWellFormed, needs, none] at formed
    cases formed
  | unknownFunction v =>
    obtain ⟨op, operand, unknown⟩ := cause
    obtain ⟨k, index, lt⟩ := h.call op v operand
    exact absurd lt (Nat.not_lt.2 (unknown k index))
  | unknownLibraryFn v =>
    obtain ⟨op, operand, unknown⟩ := cause
    obtain ⟨k, index, lt⟩ := h.callname op v operand
    exact absurd lt (Nat.not_lt.2 (unknown k index))
  | _ => rfl

end Action

/-! ### Runs -/

variable {m : Image}

theorem Image.mem_of_instr? {k pc : Nat} {i : Instr} (h : m.instr? k pc = some i) :
    ∃ f ∈ m.functions, i ∈ f.body := by
  obtain ⟨f, hf, hi⟩ := Option.bind_eq_some_iff.1 h
  exact ⟨f, List.mem_of_getElem? hf, List.mem_of_getElem? hi⟩

/-- No run of an image that admits all its code finds the image broken. -/
theorem Machine.run_not_broken (admits : ∀ f ∈ m.functions, ∀ i ∈ f.body, m.Admits i)
    (nonempty : m.functions ≠ []) {vm last : Machine} {e : Fault} (h : vm.run m = some (.error e, last)) :
    e.isBroken = false := by
  by_cases limit : ∃ n, e = .stepLimitExceeded n
  · obtain ⟨n, rfl⟩ := limit
    rfl
  · obtain ⟨i, t, n, u, dispatches, failed, -⟩ :=
      exists_raises (mt List.isEmpty_iff.1 nonempty) h (not_exists.1 limit)
    obtain ⟨frame, callers, -, fetched⟩ := dispatches.fetched
    obtain ⟨f, mem, inside⟩ := Image.mem_of_instr? fetched
    exact Action.trusts_perform (admits f mem i inside) failed

end CZero
