import CZero.Proofs.Image.Canonical

/-!
# Numbers of an image that was read

A count has four bytes, and so has every operand but that of `push`. Whatever the bytes are, the numbers
that are read from them are therefore small:

    functions, instructions of a function      below 2³²
    operands that are not pushed               from -2³¹ to 2³¹ - 1, in the address of a global with the bias

This is all that is known of an image before it runs. It need not be one that a compiler has written.
-/

namespace CZero

/-- The numbers of an image fit the bytes that they are read from. -/
structure Image.IsCompact (m : Image) : Prop where
  functions : m.functions.length < 2 ^ 32
  bodies : ∀ f ∈ m.functions, f.body.length < 2 ^ 32
  operands : ∀ f ∈ m.functions, ∀ i ∈ f.body, i.Narrow (m.functions.length + libraryCount)

/-- Four bytes write a number of 32 bits. -/
theorem toInt_signedOfBigEndian {bytes : List UInt8} (h : bytes.length = 4) :
    -2 ^ 31 ≤ (signedOfBigEndian bytes).toInt ∧ (signedOfBigEndian bytes).toInt < 2 ^ 31 := by
  have low := Int.le_bmod (x := ofBigEndian bytes) (m := 2 ^ 32) (by decide)
  have high := Int.bmod_lt (x := ofBigEndian bytes) (m := 2 ^ 32) (by decide)
  have width : 1 <<< (8 * bytes.length) = 2 ^ 32 := by rw [h]; decide
  rw [signedOfBigEndian, width, Int64.toInt_ofInt_of_le (by omega) (by omega)]
  omega

namespace Image

theorem toInt_globalBias {count : Nat} (h : count < 2 ^ 32) :
    (globalBias count).toInt = count + libraryCount := by
  rw [globalBias, Int64.toInt_ofNat_of_lt (by simp only [libraryCount]; omega)]
  rfl

namespace Reader

theorem takes_operand_narrow {count : Nat} (few : count < 2 ^ 32) (op : Opcode) :
    (operand (globalBias count) op).Takes fun _ v => Instr.Narrow (count + libraryCount) ⟨op, v⟩ := by
  rw [operand]
  split
  · refine (takes_bytes op.operandWidth).bind ?_
    rintro bs _ ⟨rfl, length⟩
    refine takes_pure fun notPush v mem => ?_
    cases mem
    have four : bs.length = 4 := by
      rw [length]
      revert notPush
      cases op <;> simp_all [Opcode.hasOperand, Opcode.operandWidth]
    have bounds := toInt_signedOfBigEndian four
    have bias := toInt_globalBias few
    dsimp only
    split
    · have exact : (signedOfBigEndian bs - globalBias count).toInt =
          (signedOfBigEndian bs).toInt - (count + libraryCount) := by
        rw [Int64.toInt_sub, bias, Int.bmod_eq_of_le (by simp only [libraryCount]; omega)
          (by simp only [libraryCount]; omega)]
      rw [exact, Int.sub_add_cancel]
      exact bounds
    · rwa [Int.add_zero]
  · refine takes_pure fun _ v mem => ?_
    cases mem

theorem takes_instr_narrow {count : Nat} (few : count < 2 ^ 32) :
    (instr (globalBias count)).Takes fun _ i => i.Narrow (count + libraryCount) := by
  refine takes_get fun _ => (takes_number 1).bind fun _ byte _ => ?_
  dsimp only
  split
  · next op _ => exact (takes_operand_narrow few op).bind fun _ v narrow => takes_pure narrow
  · exact takes_throw _

/-- What holds of each of many things that are read holds of all. -/
theorem takes_times_forall {α : Type} {r : Reader α} {P : α → Prop} (h : r.Takes fun _ a => P a) (n : Nat) :
    (times r n).Takes fun _ as => as.length = n ∧ ∀ a ∈ as, P a := by
  induction n with
  | zero => exact takes_pure ⟨rfl, nofun⟩
  | succ n ih =>
    refine h.bind fun _ a first => ih.bind ?_
    rintro _ as ⟨rfl, rest⟩
    exact takes_pure ⟨rfl, List.forall_mem_cons.2 ⟨first, rest⟩⟩

theorem takes_function_compact {count : Nat} (few : count < 2 ^ 32) :
    (function (globalBias count)).Takes fun _ f =>
      f.body.length < 2 ^ 32 ∧ ∀ i ∈ f.body, i.Narrow (count + libraryCount) := by
  refine takes_word.bind fun _ name _ => takes_word.bind fun _ ret _ => takes_word.bind fun _ params _ =>
    takes_word.bind fun _ locals _ => (takes_number 4).bind fun _ n bound => ?_
  refine (takes_times_forall (takes_instr_narrow few) n).bind ?_
  rintro _ body ⟨rfl, narrow⟩
  exact takes_pure ⟨bound.2, narrow⟩

theorem takes_image_compact : image.Takes fun _ m => m.IsCompact := by
  refine takes_word.bind fun _ found _ => ?_
  split
  · exact takes_throw _
  refine takes_word.bind fun _ found _ => ?_
  split
  · exact takes_throw _
  refine (takes_number 4).bind fun _ globalCount _ => (takes_times takes_global globalCount).bind
    fun _ globals _ => (takes_number 4).bind ?_
  rintro _ count ⟨-, few⟩
  refine (takes_times_forall (takes_function_compact few) count).bind ?_
  rintro _ functions ⟨rfl, compact⟩
  refine takes_get fun last => ?_
  dsimp only
  split
  · exact takes_throw _
  · exact takes_pure ⟨few, fun f mem => (compact f mem).1, fun f mem => (compact f mem).2⟩

end Reader

/-- The numbers of an image that was read are small. -/
theorem isCompact_of_ofBytes {b : List UInt8} {m : Image} (h : ofBytes b = .ok m) : m.IsCompact := by
  rw [ofBytes] at h
  cases run : Reader.image.run ⟨b, 0⟩ with
  | error e =>
    rw [run] at h
    cases h
  | ok result =>
    rw [run] at h
    cases h
    obtain ⟨-, -, compact⟩ := Reader.takes_image_compact _ _ _ run
    exact compact

end Image

end CZero
