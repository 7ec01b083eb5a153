import CZero.Proofs.Lowering.Numbering
import CZero.Proofs.Machine.Contract

/-!
# Compiled programs keep the machine's contract

Whatever a compiled program does, it never runs into a missing operand or calls a function that is not
there. What its code addresses is there too: every address of a local variable is that of one of the
function's slots, and so for parameters, results and globals. Both follow from what the operands stand for.

A table can have no more entries than its source has characters. A source with more than `2 ^ 63` of them
would have functions whose numbers are no positive integers of the machine. Well below that, from `2 ^ 32`
declarations on, slots and functions would need more than the 32 bits they are numbered with. Their numbers
are natural numbers here, so what is said of a table is meant for sources that stay below this bound.
-/

namespace CZero

/-- The least number that is too large for the operand of an address, in a function with so many slots for
result and parameters, so many for local variables, and so many globals that code refers to. A function
without a result and without parameters may still address slot 0, where a result would be. -/
def Opcode.bound? (args locals globals : Nat) : Opcode → Option Nat
  | .arga => some (max 1 args)
  | .loca => some locals
  | .globa => some globals
  | _ => none

/-- The operand of an address lies in its range. -/
def Instr.InRange (args locals globals : Nat) (i : Instr) : Prop :=
  ∀ v ∈ i.operand, ∀ b ∈ i.opcode.bound? args locals globals, 0 ≤ v.toInt ∧ v.toInt < b

/-- How many globals are variables or string literals: all but the names of functions. -/
def Image.slotCount (m : Image) : Nat :=
  m.globals.length - (libraryCount + m.functions.length)

section Code

variable {r : Roster} {shape : Shape} {code : List Instr} {refs : List Reference}

theorem Instr.inRange_ofNat {op : Opcode} {k args locals globals : Nat}
    (lt : ∀ b ∈ op.bound? args locals globals, k < b) (small : k < 2 ^ 63) :
    (Instr.withOperand op (Int64.ofNat k)).InRange args locals globals := by
  rintro v ⟨⟩ b hb
  have := lt b hb
  rw [Int64.toInt_ofNat_of_lt small]
  omega

/-- The operands of addresses are numbers of slots. -/
theorem Roster.Spells.inRange (h : r.Spells shape code refs) (args : shape.params < 2 ^ 63 - 1)
    (locals : shape.locals < 2 ^ 63) (globals : r.globals.length < 2 ^ 63) :
    ∀ i ∈ code, i.InRange (shape.ret.returnSlots + shape.params) shape.locals r.globals.length := by
  have ret := shape.ret.returnSlots_le
  refine h.forall_mem (fun op _ => nofun) (fun op v isBranch => ?_) fun ref i resolves => ?_
  · have none : op.bound? (shape.ret.returnSlots + shape.params) shape.locals r.globals.length = none := by
      cases op <;> first | rfl | cases isBranch
    intro w _ b hb
    change b ∈ op.bound? _ _ _ at hb
    rw [none] at hb
    cases hb
  · cases resolves with
    | number | literal | room | libraryRoom | call | libraryCall =>
      intro v _ b hb
      cases hb
    | global at_i =>
      have lt := (List.getElem?_eq_some_iff.1 at_i).1
      refine Instr.inRange_ofNat ?_ (by omega)
      rintro b ⟨⟩
      exact lt
    | param lt =>
      refine Instr.inRange_ofNat ?_ (by omega)
      rintro b ⟨⟩
      omega
    | loc lt =>
      refine Instr.inRange_ofNat ?_ (by omega)
      rintro b ⟨⟩
      exact lt
    | result =>
      refine Instr.inRange_ofNat (k := 0) ?_ (by decide)
      rintro b ⟨⟩
      omega

/-- Calls are those of functions that are there. -/
theorem Roster.Spells.admits {m : Image} (h : r.Spells shape code refs)
    (count : r.functions.length = m.functions.length) (small : m.functions.length ≤ 2 ^ 63) :
    ∀ i ∈ code, m.Admits i := by
  intro i mem
  have calls : ∀ i ∈ code,
      (i.opcode = .call → ∀ v ∈ i.operand, ∃ k, index? v = some k ∧ k < m.functions.length) ∧
      (i.opcode = .callname → ∀ v ∈ i.operand, ∃ k, index? v = some k ∧ k < LibraryFn.all.length) := by
    refine h.forall_mem (fun op _ => ⟨fun _ => nofun, fun _ => nofun⟩) (fun op v isBranch => ?_)
      fun ref i resolves => ?_
    · constructor <;> rintro rfl <;> cases isBranch
    · cases resolves with
      | call at_i =>
        have lt := (List.getElem?_eq_some_iff.1 at_i).1
        refine ⟨fun _ => ?_, nofun⟩
        rintro v ⟨⟩
        exact ⟨_, Action.index?_ofNat (by omega), count ▸ lt⟩
      | libraryCall at_i =>
        have lt := (List.getElem?_eq_some_iff.1 at_i).1
        refine ⟨nofun, fun _ => ?_⟩
        rintro v ⟨⟩
        exact ⟨_, Action.index?_ofNat (Nat.lt_trans lt (by decide)), lt⟩
      | _ => exact ⟨nofun, nofun⟩
  exact ⟨h.isWellFormed i mem, (calls i mem).1, (calls i mem).2⟩

end Code

/-! ### Sizes -/

section Sizes

variable {p : Program}

/-- Globals and functions are at most one more than the tokens. -/
theorem Program.Legal.roster_le (legal : p.Legal) :
    (rosterOf p.items).globals.length + (rosterOf p.items).functions.length ≤ p.tokens + 1 := by
  have all := Draft.enrolls_foldl legal.1
  have le := Draft.length_foldl_le legal.1
  have start : Draft.initial.data.length + Draft.initial.fns.length = entryIndex + 1 := by decide
  rw [start, all.length_data, all.count] at le
  rw [Program.tokens]
  omega

theorem Program.Legal.number_le (legal : p.Legal) {before after : List Item} {f : FnItem}
    (items : p.items = before ++ .fn f :: after) : (Item.fns before).length + 1 ≤ p.tokens := by
  have lt := (List.getElem?_eq_some_iff.1 (functions_eq items)).1
  have le := legal.roster_le
  omega

theorem Program.shape_le {before after : List Item} {f : FnItem}
    (items : p.items = before ++ .fn f :: after) : f.shape.params + f.shape.locals + 6 ≤ p.tokens := by
  have own := Program.tokens_part_le items
  have scope := f.body.length_scope_le f.scope
  rw [f.body.length_scope] at scope
  rw [Item.tokens] at own
  simp only [FnItem.shape]
  omega

/-- Every function of an image stands for one of the roster, with fewer slots than there are tokens. -/
theorem Program.Legal.exists_hasFunction (legal : p.Legal) {k : Nat} (main : p.draft.main = some k) :
    ∀ g ∈ p.image.functions, ∃ j name shape refs,
      p.image.HasFunction (rosterOf p.items) j name shape refs g ∧
        shape.params + shape.locals + 6 ≤ p.tokens := by
  refine List.forall_mem_map.2 (legal.forall_fns ?_ fun before f after items => ?_)
  · obtain ⟨before, f, after, items, -⟩ := legal.mainCall_eq main
    have six : 6 ≤ p.tokens := Nat.le_trans (Nat.le_add_left _ _) (Program.shape_le items)
    exact ⟨_, _, _, _, legal.hasFunction_start main, six⟩
  · exact ⟨_, _, _, _, legal.hasFunction_declared items, Program.shape_le items⟩

theorem Program.Legal.length_functions (legal : p.Legal) :
    p.image.functions.length = (rosterOf p.items).functions.length := by
  simp only [Program.image, List.length_map, List.length_drop, legal.enrolls.count, Nat.add_sub_cancel_left]

theorem Program.Legal.slotCount_eq (legal : p.Legal) :
    p.image.slotCount = (rosterOf p.items).globals.length := by
  rw [Image.slotCount, legal.length_functions, Program.image, Roster.names, legal.enrolls.data]
  simp only [List.length_append, List.length_map]
  exact Nat.add_sub_cancel _ _

/-- Globals, functions, and the slots of each function behind the library can be numbered with 32 bits. -/
structure Table.IsNarrow (t : Table) : Prop where
  globals : t.globalCount < 2 ^ 32
  functions : t.functionCount < 2 ^ 32
  slots : ∀ f ∈ t.allFunctions.drop entryIndex, f.params.length + f.locals.length < 2 ^ 32

/-- A function reserves fewer slots than the program has tokens. -/
theorem Program.Legal.slots_le (legal : p.Legal) :
    ∀ f ∈ p.draft.fns.drop entryIndex, f.params.length + f.locals.length ≤ p.tokens := by
  refine legal.forall_fns (Nat.zero_le _) fun before f after items => ?_
  have parts := legal.1
  rw [items] at parts
  have own : f.Legal (before.foldl Draft.add .initial) := parts.append.2.1
  have few := Program.shape_le items
  have params : ((before.foldl Draft.add .initial).infoOf f).params.length = f.params.length :=
    List.length_map _
  rw [params, own.length_locals]
  simp only [FnItem.shape] at few
  omega

/-- Below `2 ^ 32` declarations, those of the library among them, every number of a table has 32 bits. -/
theorem analyse_isNarrow {source : String} {a : Analysis} (h : analyse source = .ok a)
    (short : source.length + (entryIndex + 1) < 2 ^ 32) : a.table.IsNarrow := by
  have spec := (Program.ofSource source).analyse_spec
  rw [show (Program.ofSource source).analyse = .ok a from h] at spec
  obtain ⟨legal, matched⟩ := spec
  obtain ⟨c, drafted, table, -⟩ := Program.exists_drafted h
  have tokens := Grammar.tokens_le_length ((legal.isTreeOf _).2 rfl)
  have le := legal.roster_le
  have functions : a.table.functionCount =
      entryIndex + (rosterOf (Program.ofSource source).items).functions.length := by
    rw [table, drafted.table.functionCount, legal.enrolls.count]
  have globals : a.table.globalCount = (rosterOf (Program.ofSource source).items).globals.length := by
    rw [Table.globalCount, ← List.length_map Analysis.globalOf, matched.globals, legal.enrolls.length_data]
  refine ⟨by omega, by omega, fun f mem => ?_⟩
  rw [matched.functions] at mem
  have slots := legal.slots_le f mem
  omega

end Sizes

/-! ### Images -/

/-- A function addresses only slots that are there. Its counts are what 32 bits hold of the numbers of its
parameters and local variables. -/
def Function.Fits (f : Function) (slots size : Nat) : Prop :=
  ∃ params locals, f.paramSlots = .ofNat params ∧ f.localSlots = .ofNat locals ∧
    params + locals ≤ size ∧ ∀ i ∈ f.body, i.InRange (f.retSlots.toNat + params) locals slots

/-- In a short program the counts are the numbers of parameters and local variables. -/
theorem Function.Fits.inRange {f : Function} {slots size : Nat} (h : f.Fits slots size)
    (short : size < 2 ^ 32) :
    ∀ i ∈ f.body, i.InRange (f.retSlots.toNat + f.paramSlots.toNat) f.localSlots.toNat slots := by
  obtain ⟨params, locals, hp, hl, le, inRange⟩ := h
  have fewParams : params < 2 ^ 32 := by omega
  have fewLocals : locals < 2 ^ 32 := by omega
  rwa [hp, hl, UInt32.toNat_ofNat_of_lt' fewParams, UInt32.toNat_ofNat_of_lt' fewLocals]

section Programs

variable {p : Program} {k : Nat} {name : String} {shape : Shape} {refs : List Reference} {f : Function}

theorem Program.Legal.fits (legal : p.Legal)
    (h : p.image.HasFunction (rosterOf p.items) k name shape refs f)
    (few : shape.params + shape.locals + 6 ≤ p.tokens) (short : p.tokens < 2 ^ 63) :
    f.Fits p.image.slotCount p.tokens := by
  have le := legal.roster_le
  have functions : 0 < (rosterOf p.items).functions.length := Nat.succ_pos _
  have ret : f.retSlots.toNat = shape.ret.returnSlots := by
    rw [h.retSlots]
    cases shape.ret <;> rfl
  refine ⟨shape.params, shape.locals, h.paramSlots, h.localSlots, by omega, ?_⟩
  rw [legal.slotCount_eq, ret]
  exact h.operands.inRange (by omega) (by omega) (by omega)

theorem Program.Legal.admits (legal : p.Legal)
    (h : p.image.HasFunction (rosterOf p.items) k name shape refs f) (short : p.tokens < 2 ^ 63) :
    ∀ i ∈ f.body, p.image.Admits i := by
  have le := legal.roster_le
  refine h.operands.admits legal.length_functions.symm ?_
  rw [legal.length_functions]
  omega

/-- All functions of an image keep the contract. -/
theorem Program.Legal.contract (legal : p.Legal) (main : p.draft.main = some k) (short : p.tokens < 2 ^ 63) :
    ∀ f ∈ p.image.functions, f.Fits p.image.slotCount p.tokens ∧ ∀ i ∈ f.body, p.image.Admits i := by
  intro f mem
  obtain ⟨j, name, shape, refs, has, few⟩ := legal.exists_hasFunction main f mem
  exact ⟨legal.fits has few short, legal.admits has short⟩

end Programs

/-- No run of a compiled program breaks the contract of the machine, whatever it reads and however many
steps it may take, and every address in its code is in range. -/
theorem compile_contract {source : String} {m : Image} (h : compile source = .ok m)
    (short : source.length < 2 ^ 63) :
    (∀ (vm last : Machine) (e : Fault), vm.run m = some (.error e, last) → e.isBroken = false) ∧
    m.slotCount = (rosterOf (Program.ofSource source).items).globals.length ∧
    (∀ f ∈ m.functions, f.Fits m.slotCount source.length) ∧
    (source.length < 2 ^ 32 → ∀ f ∈ m.functions, ∀ i ∈ f.body,
      i.InRange (f.retSlots.toNat + f.paramSlots.toNat) f.localSlots.toNat m.slotCount) := by
  obtain ⟨legal, rfl, k, main⟩ := Program.legal_of_compile h
  have tokens := Grammar.tokens_le_length ((legal.isTreeOf _).2 rfl)
  have contract := legal.contract main (by omega)
  have nonempty : (Program.ofSource source).image.functions ≠ [] := by
    rw [← List.length_pos_iff, legal.length_functions]
    exact Nat.succ_pos _
  have fits : ∀ f ∈ (Program.ofSource source).image.functions,
      f.Fits (Program.ofSource source).image.slotCount source.length := by
    intro f mem
    obtain ⟨params, locals, hp, hl, le, inRange⟩ := (contract f mem).1
    exact ⟨params, locals, hp, hl, Nat.le_trans le tokens, inRange⟩
  refine ⟨fun vm last e failed => ?_, legal.slotCount_eq, fits, fun narrow f mem => (fits f mem).inRange narrow⟩
  exact Machine.run_not_broken (fun f mem => (contract f mem).2) nonempty failed

/-- A function whose result has no slot and that calls the function in which the program starts. -/
def halfThree : String :=
  "let x:int=3;fn half(y:double)->double\x7blet z:int=x;_start();return 0.5;\x7d" ++
  "fn main()->void\x7bhalf(x);putstr(\"done\");\x7d"

set_option maxRecDepth 100000 in
theorem compile_contract_double :
    ∃ m, compile halfThree = .ok m ∧ halfThree.length < 2 ^ 63 ∧ m.slotCount = 2 ∧
    (∀ (vm last : Machine) (e : Fault), vm.run m = some (.error e, last) → e.isBroken = false) ∧
    ∀ f ∈ m.functions, f.Fits 2 halfThree.length := by
  have eval : (match compile halfThree with
      | .ok m => decide (halfThree.length < 2 ^ 63 ∧ m.slotCount = 2)
      | .error _ => false) = true := by
    decide +kernel
  split at eval
  · next m compiles =>
    obtain ⟨short, slots⟩ := of_decide_eq_true eval
    obtain ⟨runs, -, fits, -⟩ := compile_contract compiles short
    rw [slots] at fits
    exact ⟨m, compiles, short, slots, runs, fits⟩
  · cases eval

end CZero
