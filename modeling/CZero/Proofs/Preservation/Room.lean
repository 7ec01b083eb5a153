import CZero.Proofs.Lowering.Contract
import CZero.Proofs.Machine.Steps

/-!
# Room on the stack

Generated code reserves at most one result slot at a time, so a single instruction adds at most one value
to the stack, or the local variables of a function that is called. A run of `n` steps therefore needs no
more than `n` times as many values as there are tokens.
-/

namespace CZero

theorem growth_plain (op : Opcode) : (Instr.plain op).growth ≤ 1 := by
  cases op <;> simp [Instr.growth, Instr.plain]

theorem growth_withOperand {op : Opcode} (h : op ≠ .stackalloc) (v : Int64) :
    (Instr.withOperand op v).growth ≤ 1 := by
  cases op <;> simp [Instr.growth, Instr.withOperand] at h ⊢

theorem growth_stackalloc (ty : Ty) :
    (Instr.withOperand .stackalloc (Int64.ofNat ty.returnSlots)).growth ≤ 1 := by
  cases ty <;> simp [Instr.growth, Instr.withOperand, Ty.returnSlots] <;> decide

/-- Room is only made for results. -/
theorem Roster.Spells.growth_le {r : Roster} {shape : Shape} {code : List Instr} {refs : List Reference}
    (h : r.Spells shape code refs) : ∀ i ∈ code, i.growth ≤ 1 := by
  refine h.forall_mem (fun op _ => growth_plain op) (fun op v branch => ?_) fun ref i resolves => ?_
  · refine growth_withOperand ?_ v
    rintro rfl
    cases branch
  · cases resolves with
    | room | libraryRoom => exact growth_stackalloc _
    | _ => exact growth_withOperand (by decide) _

/-- A step adds at most as many values to the stack as the program has tokens. -/
theorem Image.IsOf.isLight {m : Image} {p : Program} (image : m.IsOf p.draft) (legal : p.Legal) :
    m.IsLight (p.tokens + 1) := by
  obtain ⟨k, main⟩ := image.main
  have same : m.functions = p.image.functions := image.functions
  refine ⟨fun f mem i inside => ?_, fun f mem => ?_⟩ <;>
    obtain ⟨j, name, shape, refs, has, few⟩ := legal.exists_hasFunction main f (same ▸ mem)
  · exact Nat.le_add_left_of_le (has.operands.growth_le i inside)
  · have slots : f.localSlots.toNat ≤ shape.locals := by
      rw [has.localSlots, UInt32.toNat_ofNat']
      exact Nat.mod_le _ _
    omega

end CZero
