import CZero.Proofs.Grammar.Words
import CZero.Proofs.Image.RoundTrip
import CZero.Proofs.Lowering.Branches
import CZero.Proofs.Lowering.Contract

/-!
# Compiled programs are stored without loss

The binary form has four bytes for the length of a table and for an operand. Both are bounded by the
length of the source, so that a source of fewer than 2²⁸ characters never needs more.

    what                                      at most, for a source of n characters
    globals and functions                     n + 9
    instructions of a function                3 n + 2
    operands that are not pushed              3 n + 9
    bytes of a string literal or a name       4 n

Main statement: the image of such a source is read back from its bytes as it was, and running what was
read back is running the image.
-/

namespace CZero

/-! ### Globals -/

/-- A global is a variable, or one of the words of the program. -/
def Global.IsWord (P : String → Prop) (g : Global) : Prop :=
  (∃ isConst, g = .scalar isConst) ∨ ∃ text, P text ∧ g = .ofText text

theorem Item.isWord_registrations {P : String → Prop} {i : Item} (words : ∀ text ∈ i.words, P text) :
    ∀ r ∈ i.registrations, r.global.IsWord P := by
  have literals : ∀ texts : List String, (∀ text ∈ texts, P text) →
      ∀ r ∈ texts.map Registration.literal, r.global.IsWord P :=
    fun texts all => List.forall_mem_map.2 fun text mem => .inr ⟨text, all text mem, rfl⟩
  cases i with
  | fn f => exact literals _ fun text mem => words text (.tail _ mem)
  | decl g =>
    exact List.forall_mem_append.2 ⟨literals _ words, List.forall_mem_singleton.2 (.inl ⟨_, rfl⟩)⟩

/-- All globals of an image are variables, words of the program or names that are always there. -/
theorem Program.Legal.isWord_image {P : String → Prop} {p : Program} (legal : p.Legal)
    (words : ∀ i ∈ p.items, ∀ text ∈ i.words, P text) (entry : P entryName)
    (library : ∀ f ∈ LibraryFn.all, P f.name) : ∀ g ∈ p.image.globals, g.IsWord P := by
  have declared : ∀ r ∈ (rosterOf p.items).globals, r.global.IsWord P := by
    intro r mem
    obtain ⟨i, inside, mem⟩ := List.mem_flatMap.1 mem
    exact Item.isWord_registrations (words i inside) r mem
  have own : ∀ f ∈ Item.fns p.items, P f.name.name := by
    intro f mem
    obtain ⟨i, inside, eq⟩ := List.mem_filterMap.1 mem
    cases i with
    | fn g =>
      cases eq
      exact words _ inside _ (.head _)
    | decl g => cases eq
  have names : ∀ name ∈ (rosterOf p.items).names, P name := by
    refine List.forall_mem_append.2 ⟨List.forall_mem_map.2 library, List.forall_mem_cons.2 ⟨entry, ?_⟩⟩
    rw [List.map_map]
    exact List.forall_mem_map.2 own
  rw [Program.image, legal.enrolls.data]
  exact List.forall_mem_append.2 ⟨List.forall_mem_map.2 declared,
    List.forall_mem_map.2 fun name mem => .inr ⟨name, names name mem, rfl⟩⟩

theorem utf8ByteSize_le (s : String) : s.utf8ByteSize ≤ 4 * s.length := by
  rw [← String.size_toByteArray, ← String.utf8Encode_toList, List.utf8Encode, List.size_toByteArray,
    List.length_flatMap, ← String.length_toList]
  simp only [String.length_utf8EncodeChar]
  induction s.toList with
  | nil => exact Nat.zero_le _
  | cons c cs ih =>
    have := c.utf8Size_le_four
    simp only [List.map_cons, List.sum_cons, List.length_cons]
    omega

/-- A global has at most four bytes for each character of a word. -/
theorem Global.IsWord.length_lt {g : Global} {n : Nat} (h : g.IsWord fun text => text.length ≤ n)
    (small : n < 2 ^ 30) : g.value.length < 2 ^ 32 := by
  obtain ⟨isConst, rfl⟩ | ⟨text, short, rfl⟩ := h
  · exact of_decide_eq_true rfl
  · have le := utf8ByteSize_le text
    change text.utf8ByteSize < 2 ^ 32
    omega

/-- All globals of an image are variables or words of its source. -/
theorem compile_globals {source : String} {m : Image} (h : compile source = .ok m) :
    m.globals.length ≤ source.length + 9 ∧
      ∀ g ∈ m.globals, g.IsWord fun text => text.length ≤ max source.length 9 := by
  obtain ⟨legal, rfl, -⟩ := Program.legal_of_compile h
  have tree : Grammar.IsProgram (.ofSource source) (.ofSource source) := (legal.isTreeOf _).2 rfl
  refine ⟨?_, legal.isWord_image (fun i mem text word => ?_) (le_max_of_le_right (by decide)) fun f mem => ?_⟩
  · have tokens := Grammar.tokens_le_length tree
    have le := legal.roster_le
    have library : LibraryFn.all.length = 8 := by decide
    rw [Program.image, legal.enrolls.data, Roster.names]
    simp only [List.length_append, List.length_map, library]
    omega
  · exact le_max_of_le_left (Grammar.length_word_le tree mem word)
  · have short : ∀ f ∈ LibraryFn.all, f.name.length ≤ 9 := by decide
    exact le_max_of_le_right (short f mem)

/-! ### Operands -/

/-- Unless it is pushed, what an operand stands for has a number that is no larger than the tables. -/
theorem Roster.Spells.operand_le {r : Roster} {shape : Shape} {code : List Instr} {refs : List Reference}
    {b : Nat} (h : r.Spells shape code refs) (slots : shape.params + shape.locals ≤ b)
    (tables : r.globals.length + r.functions.length + LibraryFn.all.length ≤ b) (small : b < 2 ^ 63) :
    ∀ i ∈ code, i.opcode.isBranch = false → i.opcode ≠ .push → ∀ v ∈ i.operand, v.toInt.natAbs ≤ b := by
  have ofNat : ∀ (op : Opcode) (k : Nat), k ≤ b →
      ∀ v ∈ (Instr.withOperand op (Int64.ofNat k)).operand, v.toInt.natAbs ≤ b := by
    rintro op k le v ⟨⟩
    rw [Int64.toInt_ofNat_of_lt (by omega)]
    exact le
  have library : 0 < LibraryFn.all.length := by decide
  have result : ∀ ty : Ty, ty.returnSlots ≤ b := fun ty => Nat.le_trans ty.returnSlots_le (by omega)
  refine h.forall_mem (fun op _ _ _ => nofun) (fun op v branch no => ?_) fun ref i resolves _ ne => ?_
  · rw [show op.isBranch = false from no] at branch
    cases branch
  cases resolves with
  | number | literal => exact absurd rfl ne
  | global at_i | call at_i | libraryCall at_i =>
    have lt := (List.getElem?_eq_some_iff.1 at_i).1
    exact ofNat _ _ (by omega)
  | param lt =>
    have ret := shape.ret.returnSlots_le
    exact ofNat _ _ (by omega)
  | loc lt => exact ofNat _ _ (by omega)
  | result => exact ofNat _ 0 (Nat.zero_le b)
  | room | libraryRoom => exact ofNat _ _ (result _)

/-- A branch goes no further than the code is long, or over one instruction. -/
theorem IsClosed.operand_le {code : List Instr} (h : IsClosed code) (short : code.length < 2 ^ 63) :
    ∀ i ∈ code, i.opcode.isBranch → ∀ v ∈ i.operand, v.toInt.natAbs ≤ code.length := by
  intro i mem branch v hv
  obtain ⟨pc, hx⟩ := List.mem_iff_getElem?.1 mem
  have lt := (List.getElem?_eq_some_iff.1 hx).1
  by_cases br : i.opcode = .br
  · obtain ⟨d, rfl, low, high⟩ := (h pc i hx).1 br
    cases hv
    rw [Int64.toInt_ofInt_of_le (by omega) (by omega)]
    omega
  · rw [(h pc i hx).2 (Opcode.isConditional_of_isBranch branch br)] at hv
    cases hv
    exact Nat.succ_le_of_lt (Nat.zero_lt_of_lt lt)

/-! ### Images -/

theorem functions_le_of_compile {source : String} {m : Image} (h : compile source = .ok m) :
    m.functions.length ≤ source.length + 1 := by
  obtain ⟨legal, rfl, -⟩ := Program.legal_of_compile h
  have tokens := Grammar.tokens_le_length ((legal.isTreeOf _).2 rfl)
  have le := legal.roster_le
  rw [legal.length_functions]
  omega

/-- The tables of an image fit their lengths. -/
theorem Image.sized_of_compile {source : String} {m : Image} (short : source.length < 2 ^ 28)
    (h : compile source = .ok m) : m.Sized := by
  obtain ⟨count, words⟩ := compile_globals h
  refine ⟨by omega, fun g mem => (words g mem).length_lt (by omega), ?_, fun f mem => ?_⟩
  · have few := functions_le_of_compile h
    omega
  · obtain ⟨j, found⟩ := List.mem_iff_getElem?.1 mem
    obtain ⟨f?, spans, -, -, -, le⟩ := exists_branches_of_compile h found
    omega

/-- Every operand survives its width. -/
theorem Image.narrow_of_compile {source : String} {m : Image} (short : source.length < 2 ^ 28)
    (h : compile source = .ok m) : ∀ f ∈ m.functions, ∀ i ∈ f.body,
      i.isWellFormed ∧ i.Narrow (m.functions.length + libraryCount) := by
  intro f mem i inside
  have few := functions_le_of_compile h
  obtain ⟨j, found⟩ := List.mem_iff_getElem?.1 mem
  obtain ⟨f?, spans, -, -, branches, length⟩ := exists_branches_of_compile h found
  obtain ⟨legal, rfl, k, main⟩ := Program.legal_of_compile h
  have tokens := Grammar.tokens_le_length ((legal.isTreeOf _).2 rfl)
  have tables := legal.roster_le
  have library : LibraryFn.all.length = 8 := by decide
  obtain ⟨j, name, shape, refs, has, slots⟩ := legal.exists_hasFunction main f mem
  refine ⟨has.operands.isWellFormed i inside, fun ne v hv => ?_⟩
  have le : v.toInt.natAbs ≤ 3 * source.length + 9 := by
    cases branch : i.opcode.isBranch with
    | true =>
      have := branches.closed.operand_le (by omega) i inside branch v hv
      omega
    | false => exact has.operands.operand_le (by omega) (by omega) (by omega) i inside branch ne v hv
  simp only [libraryCount] at few ⊢
  split <;> omega

/-- A program is read back from its bytes as it was, and what is read back runs like the program. -/
theorem compile_stored {source : String} {m : Image} (short : source.length < 2 ^ 28)
    (h : compile source = .ok m) :
    Image.ofBytes m.toBytes = .ok m ∧
      ∀ vm : Machine, (Image.ofBytes m.toBytes).map vm.run = .ok (vm.run m) := by
  have sized := Image.sized_of_compile short h
  have narrow := Image.narrow_of_compile short h
  have bias := m.toInt_bias sized
  have small := sized.functions
  have same : m.stored = m := by
    refine m.stored_eq_iff.2 fun f mem i inside => ?_
    refine (Instr.stored_eq_iff m.bias ?_ ?_ i).2 (bias ▸ narrow f mem i inside)
    · rw [bias]
      simp only [libraryCount]
      omega
    · rw [bias]
      simp only [libraryCount]
      omega
  have back : Image.ofBytes m.toBytes = .ok m := by
    rw [Image.ofBytes_toBytes m sized, same]
  refine ⟨back, fun vm => ?_⟩
  rw [back]
  rfl

set_option maxRecDepth 100000 in
/-- A text outside of ASCII, printed by what was read back. -/
theorem compile_stored_text : ∃ source m,
    source = "let s: int = \"déjà vu\"; fn main() -> void { if s < 1 { putstr(s); } }" ∧
      source.length < 2 ^ 28 ∧ compile source = .ok m ∧ Image.ofBytes m.toBytes = .ok m ∧
      ∃ vm : Machine, (vm.run m).map (·.2.output) = some "déjà vu" ∧
        (Image.ofBytes m.toBytes).map vm.run = .ok (vm.run m) := by
  obtain ⟨source, eq⟩ : ∃ source, source =
      "let s: int = \"déjà vu\"; fn main() -> void { if s < 1 { putstr(s); } }" := ⟨_, rfl⟩
  have eval : (match compile source with
      | .ok m => decide (source.length < 2 ^ 28 ∧
          ((Machine.ofConsole (.ofInput [])).runFor m 1000000).2.output = "déjà vu")
      | .error _ => false) = true := by
    subst eq
    decide +kernel
  split at eval
  · next m compiles =>
    obtain ⟨short, output⟩ := of_decide_eq_true eval
    obtain ⟨back, runs⟩ := compile_stored short compiles
    refine ⟨source, m, eq, short, compiles, back, .ofConsole (.ofInput []), ?_, runs _⟩
    rw [Machine.run_ofConsole, Option.map_some, output]
  · cases eval

end CZero
