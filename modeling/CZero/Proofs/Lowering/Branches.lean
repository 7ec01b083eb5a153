import CZero.Proofs.Codegen.Branches
import CZero.Proofs.Lowering.ControlFlow
import CZero.Proofs.Lowering.Numbering
import CZero.Proofs.Machine.Limit

/-!
# Branches of compiled programs

The code of a declared function has the jumps of its conditional statements and loops, and no others. The
function that a program starts in has none. Conditional branches skip one instruction. So all jumps of a
compiled program stay in their function, and what is left for a run to stumble over is a conditional branch
with nothing behind it to skip.

A function without a result never ends in such a branch, because it ends in `ret`. A function with a result
has no such end: if its last statement is a comparison, then the branch of that comparison is its last
instruction.
-/

namespace CZero

/-! ### The functions of an image -/

/-- Where the code of a function of the image comes from: the function that the program starts in has no
statements, and each of the others is declared by the program. -/
inductive Program.Origin (p : Program) : Nat → Option FnItem → List Span → Prop
  | start : p.Origin 0 none []
  | declared {d : Draft} {f : FnItem} : p.Has d f →
    p.Origin (d.fns.length - entryIndex) (some f) (f.body.spans (d.start f) 0)

/-- What is known of the jumps and branches of a function. -/
structure Branches (f? : Option FnItem) (spans : List Span) (body : List Instr) : Prop where
  closed : IsClosed body
  jumps : JumpsOf spans 0 body
  last : ∀ before x, body = before ++ [x] → x.opcode.isConditional → ∃ f ∈ f?, f.ret ≠ .void

theorem Decl.isStraight_globalCode (ρ : Env) (n : Nat) (g : Decl) : IsStraight (g.globalCode ρ n) := by
  unfold Decl.globalCode
  cases g.init with
  | none => exact isStraight_nil
  | some e => exact ((isStraight_singleton rfl).append (e.isStraight_code ρ n)).append (isStraight_singleton rfl)

theorem Item.isStraight_startCode (d : Draft) (items : List Item) : IsStraight (Item.startCode d items) := by
  induction items generalizing d with
  | nil => exact isStraight_nil
  | cons i rest ih =>
    cases i with
    | fn f => exact ih _
    | decl g => exact (g.isStraight_globalCode _ _).append (ih _)

theorem Item.length_startCode_le (d : Draft) (items : List Item) :
    (Item.startCode d items).length ≤ 3 * (items.map Item.tokens).sum := by
  induction items generalizing d with
  | nil => exact Nat.le_refl _
  | cons i rest ih =>
    rw [List.map_cons, List.sum_cons, Nat.mul_add]
    cases i with
    | fn f => exact Nat.le_add_left_of_le (ih _)
    | decl g =>
      rw [Item.startCode, List.length_append]
      exact Nat.add_le_add (g.length_globalCode_le _ _) (ih _)

/-- How long the function is that a program starts in. -/
theorem Program.Legal.length_start_le {p : Program} (legal : p.Legal) {k : Nat}
    (main : p.draft.main = some k) :
    (Item.startCode .initial p.items ++ (p.items.foldl Draft.add .initial).mainCall).length
      ≤ 3 * p.tokens + 2 := by
  obtain ⟨before, f, after, -, -, -, code⟩ := legal.mainCall_eq main
  rw [code, List.length_append]
  exact Nat.add_le_add_right (Item.length_startCode_le .initial p.items) 2

/-- The function that a program starts in ends in the call of `main`. -/
theorem Program.Legal.branches_start {p : Program} (legal : p.Legal) {k : Nat} (main : p.draft.main = some k) :
    Branches none [] (Item.startCode .initial p.items ++ (p.items.foldl Draft.add .initial).mainCall) := by
  obtain ⟨before, f, after, -, -, -, code⟩ := legal.mainCall_eq main
  rw [code]
  have call : IsStraight [.withOperand .stackalloc (Int64.ofNat f.ret.returnSlots),
      .withOperand .call (Int64.ofNat ((Item.fns before).length + 1))] :=
    (isStraight_singleton rfl).append (isStraight_singleton rfl)
  have straight := (Item.isStraight_startCode .initial p.items).append call
  refine ⟨straight.isClosed, straight.jumpsOf, fun init x split cond => ?_⟩
  rw [List.append_cons] at split
  cases (List.append_inj_right' split rfl)
  cases cond

/-- A declared function has the jumps of its statements, and ends in `ret` if it has no result. -/
theorem FnItem.branches (d : Draft) (f : FnItem) :
    Branches (some f) (f.body.spans (d.start f) 0) (d.infoOf f).body := by
  change Branches _ _ ((f.body.gen (d.start f)).1 ++ f.epilogue)
  have own := f.body.isClosed_gen (d.start f)
  have jumps := f.body.jumpsOf_gen (d.start f) 0
  by_cases void : f.ret = .void
  · have ends : IsStraight [.plain .ret] := isStraight_singleton rfl
    rw [FnItem.epilogue, if_pos void]
    refine ⟨own.append ends.isClosed, jumps.append ends.jumpsOf, fun before x split cond => ?_⟩
    cases (List.append_inj_right' split rfl)
    cases cond
  · rw [FnItem.epilogue, if_neg void, List.append_nil]
    exact ⟨own, jumps, fun _ _ _ _ => ⟨f, rfl, void⟩⟩

/-- Every function of an image has an origin, and its branches are as known. -/
theorem Program.Legal.exists_origin {p : Program} (legal : p.Legal) {k : Nat} (main : p.draft.main = some k)
    {j : Nat} {g : Function} (found : p.image.functions[j]? = some g) :
    ∃ f? spans, p.Origin j f? spans ∧ Branches f? spans g.body := by
  rw [Program.image, List.getElem?_map] at found
  obtain ⟨info, at_j, rfl⟩ := Option.map_eq_some_iff.1 found
  have mem := List.mem_of_getElem? at_j
  rw [List.getElem?_drop] at at_j
  have index := Program.index_eq at_j
  obtain rfl : info.index - entryIndex = j := by omega
  refine legal.forall_fns (P := fun info => ∃ f? spans, p.Origin (info.index - entryIndex) f? spans ∧
    Branches f? spans info.body) ?_ (fun before f after items => ?_) info mem
  · exact ⟨none, [], .start, legal.branches_start main⟩
  · exact ⟨some f, _, .declared ⟨before, after, items, rfl⟩, f.branches _⟩

theorem Program.Origin.placed {p : Program} {m : Image} {j : Nat} {f? : Option FnItem} {spans : List Span}
    (h : p.Origin j f? spans) (image : m.IsOf p.draft) : ∀ span ∈ spans, span.Placed m j := by
  cases h with
  | start => exact nofun
  | @declared d f has => exact f.body.placed_spans (Image.holds_append.1 (image.holds has)).1

/-! ### Invalid jumps -/

/-- A jump to a place of the code finds it. -/
theorem index?_of_target {pc target : Nat} {offset : Int} (eq : (target : Int) = pc + offset)
    (small : target < 2 ^ 63) : index? (Int64.ofNat pc + Int64.ofInt offset) = some target := by
  rw [index?_eq_some, toInt_ofNat_add_ofInt, ← eq]
  exact Int.bmod_eq_of_le (by omega) (by omega)

theorem Opcode.isConditional_of_isBranch {op : Opcode} (branch : op.isBranch) (ne : op ≠ .br) :
    op.isConditional := by
  cases op with
  | brtrue | brfalse => rfl
  | br => exact absurd rfl ne
  | _ => cases branch

/-- A branch out of a function is conditional, and there is nothing behind it. -/
theorem Branches.exists_of_invalid {f? : Option FnItem} {spans : List Span} {body : List Instr}
    (h : Branches f? spans body) (inside : ∀ span ∈ spans, span.stop ≤ body.length)
    (short : body.length + 1 < 2 ^ 63) {pc : Nat} {x : Instr} {offset : Int64} (hx : body[pc]? = some x)
    (branch : x.opcode.isBranch) (operand : x.operand = some offset)
    (beyond : ∀ target, index? (Int64.ofNat (pc + 1) + offset) = some target → body.length < target) :
    x.opcode.isConditional ∧ ∃ before, body = before ++ [x] ∧ before.length = pc := by
  have lt := (List.getElem?_eq_some_iff.1 hx).1
  by_cases br : x.opcode = .br
  · obtain ⟨span, mem, target, n, lands, rfl⟩ := h.jumps pc x hx br
    have le := Nat.le_trans lands.target_le (inside span mem)
    have eq := lands.target_eq
    cases operand
    -- its target is in the code or just behind it, so it cannot be beyond
    have := beyond target (index?_of_target (by omega) (by omega))
    omega
  · have cond := Opcode.isConditional_of_isBranch branch br
    cases operand.symm.trans ((h.closed pc x hx).2 cond)
    have next : index? (Int64.ofNat (pc + 1) + Int64.ofInt 1) = some (pc + 2) :=
      index?_of_target (by omega) (by omega)
    have last := beyond (pc + 2) next
    -- a branch over one instruction is only beyond the code if there is no such instruction
    refine ⟨cond, body.take pc, ?_, by rw [List.length_take]; omega⟩
    have split := List.take_append_drop pc body
    rw [List.drop_eq_getElem_cons lt, (List.getElem_eq_iff lt).2 hx, List.drop_eq_nil_of_le (by omega)] at split
    exact split.symm

/-- A function of a compiled program: where it comes from, what is known of its branches, and how long it
is. -/
theorem exists_branches_of_compile {source : String} {m : Image} (compiles : compile source = .ok m) {j : Nat}
    {g : Function} (found : m.functions[j]? = some g) :
    ∃ f? spans, (Program.ofSource source).Origin j f? spans ∧ (∀ span ∈ spans, span.Placed m j) ∧
      Branches f? spans g.body ∧ g.body.length ≤ 3 * source.length + 2 := by
  obtain ⟨legal, rfl, k, main⟩ := Program.legal_of_compile compiles
  obtain ⟨f?, spans, origin, branches⟩ := legal.exists_origin main found
  have image := (compile_spec compiles).2
  have tree : Grammar.IsProgram (.ofSource source) (.ofSource source) := (legal.isTreeOf _).2 rfl
  refine ⟨f?, spans, origin, origin.placed image, branches, ?_⟩
  cases origin with
  | start =>
    cases (legal.hasFunction_start main).place.symm.trans found
    exact Nat.le_trans (legal.length_start_le main)
      (Nat.add_le_add_right (Nat.mul_le_mul_left 3 (Grammar.tokens_le_length tree)) 2)
  | declared has =>
    cases (image.getElem? has).symm.trans found
    exact Nat.le_add_right_of_le (has.length_body_le tree)

theorem nonempty_of_compile {source : String} {m : Image} (compiles : compile source = .ok m) :
    ¬m.functions.isEmpty := by
  obtain ⟨f, first, -⟩ := (compile_spec compiles).2.start
  intro empty
  rw [List.isEmpty_iff.1 empty] at first
  cases first

/-- Every branch of a compiled program goes where its statement says, and a run can only stumble over a
conditional branch at the very end of a declared function that has a result. The code is at most three
times as long as the source, so below `2 ^ 61` characters no offset wraps around. -/
theorem compile_branches {source : String} {m : Image} (compiles : compile source = .ok m) :
    (Program.ofSource source).IsTreeOf source ∧
    (∀ j g, m.functions[j]? = some g → ∃ f? spans, (Program.ofSource source).Origin j f? spans ∧
      (∀ span ∈ spans, span.Placed m j) ∧
      ∀ place x, g.body[place]? = some x →
        (x.opcode.isConditional → x.operand = some 1) ∧
        (x.opcode = .br → ∃ span ∈ spans, ∃ target offset, span.Lands place target offset ∧
          target ≤ g.body.length ∧ x = jumpBy offset ∧
          (source.length < 2 ^ 61 → x.operand.map (·.toInt) = some offset))) ∧
    (source.length < 2 ^ 61 → ∀ (vm last : Machine) (target : Int64) (length : Nat),
      vm.run m = some (.error (.invalidJump target length), last) →
      ∃ d f before x t frame callers, (Program.ofSource source).Has d f ∧ f.ret ≠ .void ∧
        m.functions[d.fns.length - entryIndex]?.map (·.body) = some (before ++ [x]) ∧
        x.opcode.isConditional ∧ vm.Raises m (.invalidJump target length) x t ∧
        t.frames = frame :: callers ∧ frame.function = d.fns.length - entryIndex ∧
        frame.pc = before.length + 1) := by
  refine ⟨(compile_spec compiles).1.isTreeOf, fun j g found => ?_, fun short vm last target length failed => ?_⟩
  · obtain ⟨f?, spans, origin, placed, branches, le⟩ := exists_branches_of_compile compiles found
    refine ⟨f?, spans, origin, placed, fun place x hx => ⟨(branches.closed place x hx).2, fun br => ?_⟩⟩
    obtain ⟨span, mem, target, offset, lands, rfl⟩ := branches.jumps place x hx br
    rw [Nat.zero_add] at lands
    have within := Nat.le_trans lands.target_le ((placed span mem).stop_le found)
    refine ⟨span, mem, target, offset, lands, within, rfl, fun short => ?_⟩
    have eq := lands.target_eq
    have lt := (List.getElem?_eq_some_iff.1 hx).1
    exact congrArg some (Int64.toInt_ofInt_of_le (by omega) (by omega))
  · obtain ⟨x, t, raises⟩ := Machine.exists_raises (nonempty_of_compile compiles) failed nofun
    have ⟨n, u, dispatches, raised, _⟩ := raises
    obtain ⟨f, callers, frames, instr⟩ := dispatches.fetched
    obtain ⟨g, found, hx⟩ := Option.bind_eq_some_iff.1 instr
    obtain ⟨f?, spans, origin, placed, branches, le⟩ := exists_branches_of_compile compiles found
    obtain ⟨branch, offset, f', callers', operand, running, goes, size, beyond⟩ :=
      (Action.fails_perform m x raised).1
    cases frames.symm.trans running
    have size : length = g.body.length := by rw [size, Image.length, found]; rfl
    rw [goes, size] at beyond
    obtain ⟨cond, before, split, here⟩ := branches.exists_of_invalid
      (fun span mem => (placed span mem).stop_le found) (by omega) hx branch operand beyond
    obtain ⟨own, rfl, result⟩ := branches.last before x split cond
    generalize number : f.function = j at origin found
    cases origin with
    | declared has =>
      refine ⟨_, own, before, x, t, _, callers, has, result, ?_, cond, raises, frames, number, ?_⟩
      · rw [found, Option.map_some, split]
      · rw [here]

/-- A source with a function that ends in a comparison. -/
def endsInComparison : String :=
  "fn f(n: int) -> int { while n > 0 { n = n - 1; } if n { } else { putint(n); } 1 < 2; } " ++
  "fn main() -> void { f(1); }"

set_option maxRecDepth 100000 in
/-- The loop goes back to its condition, and the run stumbles over the last instruction of `f`. -/
theorem compile_branches_endsInComparison : ∃ m, compile endsInComparison = .ok m ∧
    m.instr? 1 14 = some (jumpBy (-14)) ∧ (∃ span : Span, span.Jump 14 1 ∧ span.testStart? = some 1) ∧
    ∃ x t, (Machine.ofConsole (.ofInput [])).Raises m (.invalidJump 31 30) x t ∧ x.opcode.isConditional := by
  have eval : (match compile endsInComparison with
      | .ok m =>
        match (Machine.ofConsole (.ofInput [])).runFor m 1000000 with
        | (.error e, _) => decide (m.instr? 1 14 = some (jumpBy (-14)) ∧ e = .invalidJump 31 30)
        | (.ok _, _) => false
      | .error _ => false) = true := by
    decide +kernel
  have short : endsInComparison.length < 2 ^ 61 := by decide +kernel
  split at eval
  · next m compiles =>
    split at eval
    · next e last failed =>
      obtain ⟨back, rfl⟩ := of_decide_eq_true eval
      obtain ⟨-, code, runs⟩ := compile_branches compiles
      refine ⟨m, compiles, back, ?_, ?_⟩
      · obtain ⟨g, found, at_14⟩ := Option.bind_eq_some_iff.1 back
        obtain ⟨f?, spans, -, -, branches⟩ := code 1 g found
        obtain ⟨span, -, target, offset, lands, -, -, operand⟩ := (branches 14 _ at_14).2 rfl
        obtain rfl : -14 = offset := Option.some.inj (operand short)
        obtain rfl : target = 1 := by have := lands.target_eq; omega
        exact ⟨span, lands.jump, lands.backward (by decide)⟩
      · obtain ⟨d, f, before, x, t, frame, callers, -, -, -, cond, raises, -⟩ := runs short _ _ _ _
          ((Machine.run_ofConsole _ m).trans (congrArg some failed))
        exact ⟨x, t, raises, cond⟩
    · cases eval
  · cases eval

end CZero
