import CZero.Proofs.Image.Reading

/-!
# Reading back what was written

The binary form of an instruction has room for one operand of a fixed width, so an image in memory can
hold more than its bytes do: an operand where the operation takes none, a missing operand, or one that
is too wide. `Image.stored` says exactly what comes back.

    operation      operand      comes back as
    no operand     any          none
    push           v, none      v, 0
    globa          v, none      low32 (v + bias) - bias, low32 bias - bias
    any other      v, none      low32 v, 0

An image whose tables fit their length fields is always read back, as its stored form. So it comes back
unchanged exactly if no instruction loses anything.
-/

namespace CZero

/-! ### What is stored of an instruction -/

/-- The operand that is read back for an operation and the operand it had in memory. -/
def Opcode.storedOperand (bias : Int64) (op : Opcode) (v : Option Int64) : Option Int64 :=
  match op with
  | .push => some (v.getD 0)
  | .globa => some (low32 (v.getD 0 + bias) - bias)
  | _ => if op.hasOperand then some (low32 (v.getD 0)) else none

/-- An instruction as it is read back. -/
def Instr.stored (bias : Int64) (i : Instr) : Instr :=
  ⟨i.opcode, i.opcode.storedOperand bias i.operand⟩

/-- A function as it is read back. -/
def Function.stored (bias : Int64) (f : Function) : Function :=
  { f with body := f.body.map (·.stored bias) }

/-- An image as it is read back. -/
def Image.stored (m : Image) : Image :=
  { m with functions := m.functions.map (·.stored m.bias) }

/-- The operand survives its width: a number of 32 bits, counted with the bias in a global's address. -/
def Instr.Narrow (bias : Int) (i : Instr) : Prop :=
  i.opcode ≠ .push → ∀ v ∈ i.operand,
    -2 ^ 31 ≤ v.toInt + (if i.opcode = .globa then bias else 0) ∧
      v.toInt + (if i.opcode = .globa then bias else 0) < 2 ^ 31

/-- Every table of the image fits the four bytes of its length. -/
structure Image.Sized (m : Image) : Prop where
  globals : m.globals.length < 2 ^ 32
  values : ∀ g ∈ m.globals, g.value.length < 2 ^ 32
  functions : m.functions.length < 2 ^ 32
  bodies : ∀ f ∈ m.functions, f.body.length < 2 ^ 32

/-! ### Reading the parts -/

namespace Image.Reader

theorem reads_byte (b : UInt8) : Reads (number 1) [b] b.toNat := by
  have read := (reads_bytes [b] rfl).map ofBigEndian
  rwa [ofBigEndian_cons, List.length_nil, Nat.pow_zero, Nat.mul_one] at read

theorem reads_global (g : Global) (h : g.value.length < 2 ^ 32) :
    Reads readGlobal (globalBytes g) g := by
  have flag : ((if g.isConst then 1 else 0 : UInt8).toNat != 0) = g.isConst := by
    cases g.isConst <;> rfl
  rw [globalBytes, List.cons_append, ← List.singleton_append]
  refine (reads_byte (if g.isConst then 1 else 0)).bind ((reads_length h).bind ?_)
  rw [flag]
  exact (reads_bytes g.value rfl).map (Global.mk g.isConst)

/-- What is read back is what the written bytes say. -/
theorem signed_written (bias : Int64) (op : Opcode) (v : Option Int64) :
    let value := signedOfBigEndian
      (bigEndian op.operandWidth (writtenOperand bias ⟨op, v⟩).toUInt64.toNat)
    op.storedOperand bias v
      = if op.hasOperand then some (if op = .globa then value - bias else value) else none := by
  cases op <;> first
    | rfl
    | simp only [Opcode.operandWidth, signedOfBigEndian_four, signedOfBigEndian_eight]; rfl

theorem reads_operand (bias : Int64) (op : Opcode) (v : Option Int64) :
    Reads (operand bias op)
      (bigEndian op.operandWidth (writtenOperand bias ⟨op, v⟩).toUInt64.toNat)
      (op.storedOperand bias v) := by
  rw [signed_written, operand]
  by_cases h : op.hasOperand
  · rw [if_pos h, if_pos h]
    exact (reads_bytes _ (length_bigEndian ..)).map fun bs =>
      some (if op = .globa then signedOfBigEndian bs - bias else signedOfBigEndian bs)
  · have width : op.operandWidth = 0 := by simpa [Opcode.hasOperand] using h
    rw [if_neg h, if_neg h, width]
    exact reads_pure none

theorem reads_instr (bias : Int64) (i : Instr) :
    Reads (instr bias) (instrBytes bias i) (i.stored bias) := by
  rw [instrBytes, ← List.singleton_append]
  refine reads_get fun _ => (reads_byte i.opcode.byte).bind ?_
  simp only [UInt8.ofNat_toNat, Opcode.ofByte?_byte]
  exact (reads_operand bias i.opcode i.operand).map (Instr.mk i.opcode)

theorem reads_function (bias : Int64) (f : Function) (h : f.body.length < 2 ^ 32) :
    Reads (function bias) (functionBytes bias f) (f.stored bias) := by
  have body : Reads (times (instr bias) f.body.length) (f.body.flatMap (instrBytes bias))
      (f.body.map (·.stored bias)) := reads_times f.body fun i _ => reads_instr bias i
  simp only [functionBytes, List.append_assoc]
  refine (reads_word f.name).bind ((reads_word f.retSlots).bind ?_)
  refine (reads_word f.paramSlots).bind ((reads_word f.localSlots).bind ?_)
  exact (reads_length h).bind (body.map (Function.mk f.name f.retSlots f.paramSlots f.localSlots))

/-- The two tables of an image, each behind its length. -/
theorem reads_tables (m : Image) (h : m.Sized) :
    Reads (times readGlobal m.globals.length) (m.globals.flatMap globalBytes) m.globals ∧
    Reads (times (function (globalBias m.functions.length)) m.functions.length)
      (m.functions.flatMap (functionBytes m.bias)) m.stored.functions := by
  have globals := reads_times (f := id) m.globals fun g hg => reads_global g (h.values g hg)
  rw [List.map_id] at globals
  exact ⟨globals, reads_times m.functions fun f hf => reads_function m.bias f (h.bodies f hf)⟩

/-- The whole image is read, and nothing is left. -/
theorem run_image (m : Image) (h : m.Sized) :
    ∃ input, image.run ⟨m.toBytes, 0⟩ = .ok (m.stored, input) := by
  obtain ⟨globals, functions⟩ := reads_tables m h
  have all : m.toBytes = Image.word magic.toNat ++ (Image.word version.toNat
      ++ (Image.word m.globals.length ++ (m.globals.flatMap globalBytes
      ++ (Image.word m.functions.length ++ (m.functions.flatMap (functionBytes m.bias) ++ []))))) := by
    simp only [toBytes, List.append_assoc, List.append_nil]
  rw [all, image, (reads_word magic).run_bind]
  simp only [ne_eq, not_true_eq_false, if_false]
  rw [(reads_word version).run_bind]
  simp only [not_true_eq_false, if_false]
  rw [(reads_length h.globals).run_bind, globals.run_bind, (reads_length h.functions).run_bind,
    functions.run_bind]
  exact ⟨_, rfl⟩

end Image.Reader

theorem Image.ofBytes_toBytes (m : Image) (h : m.Sized) : ofBytes m.toBytes = .ok m.stored := by
  obtain ⟨input, run⟩ := Reader.run_image m h
  rw [ofBytes, run]
  rfl

/-! ### What comes back unchanged -/

theorem low32_eq_iff (v : Int64) : low32 v = v ↔ -2 ^ 31 ≤ v.toInt ∧ v.toInt < 2 ^ 31 := by
  rw [← Int64.toInt_inj, toInt_low32]
  constructor
  · intro h
    have low := Int.le_bmod (x := v.toInt) (m := 2 ^ 32) (by decide)
    have high := Int.bmod_lt (x := v.toInt) (m := 2 ^ 32) (by decide)
    omega
  · rintro ⟨low, high⟩
    exact Int.bmod_eq_of_le (by omega) (by omega)

/-- The bias is small, so that adding it either keeps a value in its range or leads far away from the
32-bit numbers. -/
theorem low32_add_sub_eq_iff (v bias : Int64) (h₀ : 0 ≤ bias.toInt) (h₁ : bias.toInt < 2 ^ 33) :
    low32 (v + bias) - bias = v ↔
      -2 ^ 31 ≤ v.toInt + bias.toInt ∧ v.toInt + bias.toInt < 2 ^ 31 := by
  have move : low32 (v + bias) - bias = v ↔ low32 (v + bias) = v + bias := by
    rw [eq_comm, Int64.eq_sub_iff_add_eq, eq_comm]
  have low := v.le_toInt
  have high := v.toInt_lt
  rw [move, low32_eq_iff, Int64.toInt_add]
  by_cases h : v.toInt + bias.toInt < 2 ^ 63
  · rw [Int.bmod_eq_of_le (by omega) (by omega)]
  · have wrapped : (v.toInt + bias.toInt).bmod (2 ^ 64) = v.toInt + bias.toInt - 2 ^ 64 := by
      rw [← Int.sub_bmod_right]
      exact Int.bmod_eq_of_le (by omega) (by omega)
    omega

theorem Instr.stored_eq_iff (bias : Int64) (h₀ : 0 ≤ bias.toInt) (h₁ : bias.toInt < 2 ^ 33)
    (i : Instr) : i.stored bias = i ↔ i.isWellFormed ∧ i.Narrow bias.toInt := by
  obtain ⟨op, v⟩ := i
  have operand : Instr.stored bias ⟨op, v⟩ = ⟨op, v⟩ ↔ op.storedOperand bias v = v := by
    simp [stored]
  rw [operand]
  cases v with
  | none => cases op <;> simp [Opcode.storedOperand, isWellFormed, Narrow, Opcode.hasOperand,
      Opcode.operandWidth]
  | some v => cases op <;> simp [Opcode.storedOperand, isWellFormed, Narrow, Opcode.hasOperand,
      Opcode.operandWidth, low32_eq_iff, low32_add_sub_eq_iff v bias h₀ h₁]

theorem map_eq_self_iff {α : Type} (f : α → α) (xs : List α) : xs.map f = xs ↔ ∀ x ∈ xs, f x = x := by
  simpa using List.map_inj_left (l := xs) (f := f) (g := id)

theorem Function.stored_eq_iff (bias : Int64) (f : Function) :
    f.stored bias = f ↔ ∀ i ∈ f.body, i.stored bias = i := by
  rw [← map_eq_self_iff]
  obtain ⟨name, ret, params, locals, body⟩ := f
  simp [stored]

theorem Image.stored_eq_iff (m : Image) :
    m.stored = m ↔ ∀ f ∈ m.functions, ∀ i ∈ f.body, i.stored m.bias = i := by
  have functions : m.stored = m ↔ m.functions.map (·.stored m.bias) = m.functions := by
    obtain ⟨globals, functions⟩ := m
    simp [stored]
  simp only [functions, map_eq_self_iff, Function.stored_eq_iff]

theorem Image.toInt_bias (m : Image) (h : m.Sized) :
    m.bias.toInt = m.functions.length + libraryCount := by
  have small := h.functions
  rw [bias, globalBias, Int64.toInt_ofNat_of_lt (by simp only [libraryCount]; omega)]
  rfl

/-- An image is read back as its stored form, and unchanged exactly if every instruction has an
operand where its operation takes one and the operand survives its width. -/
theorem Image.ofBytes_toBytes_eq_stored (m : Image) (h : m.Sized) :
    ofBytes m.toBytes = .ok m.stored ∧
    (ofBytes m.toBytes = .ok m ↔
      ∀ f ∈ m.functions, ∀ i ∈ f.body,
        i.isWellFormed ∧ i.Narrow (m.functions.length + libraryCount)) := by
  refine ⟨ofBytes_toBytes m h, ?_⟩
  have bias := toInt_bias m h
  have small := h.functions
  rw [ofBytes_toBytes m h, Except.ok.injEq, stored_eq_iff, ← bias]
  have each := fun i => Instr.stored_eq_iff m.bias (by rw [bias]; simp only [libraryCount]; omega)
    (by rw [bias]; simp only [libraryCount]; omega) i
  simp only [each]

/-- An image that loses an operand, gains one, has one cut, and keeps the address of a global below the
first. -/
theorem Image.ofBytes_toBytes_lossy :
    let m : Image := ⟨[⟨true, [104, 105]⟩], [⟨0, 1, 0, 0, [⟨.ret, some 7⟩, ⟨.push, none⟩,
      ⟨.loca, some 4294967301⟩, ⟨.globa, some (-12)⟩]⟩]⟩
    m.Sized ∧ ofBytes m.toBytes = .ok ⟨[⟨true, [104, 105]⟩], [⟨0, 1, 0, 0, [⟨.ret, none⟩,
      ⟨.push, some 0⟩, ⟨.loca, some 5⟩, ⟨.globa, some (-12)⟩]⟩]⟩ ∧ ofBytes m.toBytes ≠ .ok m := by
  intro m
  have sized : m.Sized := ⟨by decide, by decide, by decide, by decide⟩
  obtain ⟨back, same⟩ := ofBytes_toBytes_eq_stored m sized
  refine ⟨sized, back.trans (congrArg _ (by decide)), fun h => ?_⟩
  have formed := (same.mp h _ List.mem_cons_self _ List.mem_cons_self).1
  exact absurd formed (by decide)

end CZero
