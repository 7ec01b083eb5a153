import CZero.Proofs.Codegen.Size
import CZero.Proofs.Codegen.Spans
import CZero.Proofs.Lowering.Image
import CZero.Proofs.Machine.Bounded

/-!
# Control flow of compiled programs

In every program that compiles, control enters and leaves the parts of conditional statements and loops
as `Span.Lawful` says. The branch that ends a comparison is the one thing that gets around the jump at
the end of a block: a block whose last statement is a comparison that holds runs on into the `else`
block, or out of the loop.
-/

namespace CZero

/-- The code of a function is at most three times as long as the source. -/
theorem Program.Has.length_body_le {source : String} {p : Program} {d : Draft} {f : FnItem}
    (tree : Grammar.IsProgram (.ofSource source) p) (h : p.Has d f) :
    (d.infoOf f).body.length ≤ 3 * source.length := by
  obtain ⟨before, after, items, -⟩ := h
  have tokens := Nat.le_trans (Program.tokens_part_le items) (Grammar.tokens_le_length tree)
  exact Nat.le_trans (f.length_body_le (d.start f)) (Nat.mul_le_mul_left 3 tokens)

/-- Control keeps to the law of conditional statements and loops. -/
theorem compile_controlFlow {source : String} {m : Image} (compiles : compile source = .ok m)
    (short : source.length < 2 ^ 62) :
    (Program.ofSource source).IsTreeOf source ∧ ∀ d f, (Program.ofSource source).Has d f →
      ∀ span ∈ f.body.spans (d.start f) 0, span.Lawful m (d.fns.length - entryIndex) := by
  obtain ⟨legal, image⟩ := compile_spec compiles
  refine ⟨legal.isTreeOf, fun d f has span mem => ?_⟩
  have tree : Grammar.IsProgram (.ofSource source) (.ofSource source) := (legal.isTreeOf _).2 rfl
  have fits : m.Fits (d.fns.length - entryIndex) := by
    intro g hg
    cases (image.getElem? has).symm.trans hg
    have := has.length_body_le tree
    change (d.infoOf f).body.length < _
    omega
  exact (f.body.placed_spans (Image.holds_append.1 (image.holds has)).1 span mem).lawful fits

/-- The source whose first block ends in a comparison that holds. -/
def bothBlocks : String :=
  "fn main() -> void { if 1 { 1 < 2; } else { putint(7); } }"

/-- Its conditional statement. -/
def bothBlocksSpan : Span :=
  .cond 0 [.withOperand .push 1, .withOperand .brtrue 1]
    [.withOperand .push 1, .withOperand .push 2, .plain .cmpi, .plain .setlt, .withOperand .brtrue 1]
    (some [.withOperand .stackalloc 0, .withOperand .push 7, .withOperand .callname 3])

/-- A test that this is its only statement and that its run prints `7`. -/
def bothBlocksPrints : Bool :=
  match compile bothBlocks, (Program.ofSource bothBlocks).items with
  | .ok m, [.fn f] => f.body.spans (Draft.initial.start f) 0 = [bothBlocksSpan] ∧
      ((Machine.ofConsole (.ofInput [])).runFor m 1000000).2.output = "7"
  | _, _ => false

set_option maxRecDepth 100000 in
/-- The branch of the comparison is taken, and the `else` block runs too. -/
theorem compile_controlFlow_bothBlocks :
    ∃ m, compile bothBlocks = .ok m ∧ bothBlocksSpan.Lawful m 1 ∧
      ((Machine.ofConsole (.ofInput [])).run m).map (·.2.output) = some "7" := by
  have eval : bothBlocksPrints = true := by decide +kernel
  unfold bothBlocksPrints at eval
  split at eval
  · next m f compiles items =>
    obtain ⟨spans, output⟩ := of_decide_eq_true eval
    obtain ⟨-, law⟩ := compile_controlFlow compiles (by decide +kernel)
    refine ⟨m, compiles, law .initial f ⟨[], [], items, rfl⟩ _ (by rw [spans]; exact .head _), ?_⟩
    rw [Machine.run_ofConsole, Option.map_some, output]
  · cases eval

end CZero
