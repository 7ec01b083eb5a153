import CZero.Proofs.Codegen.Spans

/-!
# Where jumps go

Every jump in the code of a function belongs to a conditional statement or a loop of that function, which
fixes its place and its target:

    if c A           cond c, br, A, br             br over A and br at the end: to the end
    if c A else B    cond c, br, A, br, B, br      br over A: to B; br over B and br at the end: to the end
    while c A        br, cond c, br, A, br         br at the start: to c; br over A: to the end; last br: to c

`Span.Jump` lists them. Main statement (`Block.jumpsOf_gen`): the code of a block has no other jumps. So a
jump forwards goes to the end of its statement or to its `else` block, and a jump backwards to a condition
(`Span.Jump.lands`).
-/

namespace CZero

namespace Span

/-- The place of the first instruction. -/
def start : Span → Nat
  | .cond k _ _ _ | .loop k _ _ => k

def code : Span → List Instr
  | .cond _ test inside other => ifCode test inside other
  | .loop _ test inside => loopCode test inside

/-- The place behind the last instruction. -/
def stop (span : Span) : Nat :=
  span.start + span.code.length

/-- The place of the `else` block of a conditional statement that has one. -/
def elseStart? : Span → Option Nat
  | .cond k test inside (some _) => some (k + test.length + inside.length + 2)
  | .cond _ _ _ none | .loop _ _ _ => none

/-- The place of the first instruction of the condition of a loop. -/
def testStart? : Span → Option Nat
  | .loop k (_ :: _) _ => some (k + 1)
  | .loop _ [] _ | .cond _ _ _ _ => none

/-- The jumps that belong to a conditional statement or a loop, from place to target. -/
inductive Jump : Span → Nat → Nat → Prop
  /-- Over the block, if there is no `else`. -/
  | skip {k test inside} :
    Jump (.cond k test inside none) (k + test.length) (k + test.length + inside.length + 2)
  /-- Over the block to the `else` block. -/
  | skipToElse {k test inside other} :
    Jump (.cond k test inside (some other)) (k + test.length) (k + test.length + inside.length + 2)
  /-- Over the `else` block. -/
  | skipElse {k test inside other} :
    Jump (.cond k test inside (some other)) (k + test.length + inside.length + 1)
      (k + test.length + inside.length + other.length + 3)
  /-- To the next instruction, at the end of the block. -/
  | join {k test inside} :
    Jump (.cond k test inside none) (k + test.length + inside.length + 1)
      (k + test.length + inside.length + 2)
  /-- To the next instruction, at the end of the `else` block. -/
  | joinElse {k test inside other} :
    Jump (.cond k test inside (some other)) (k + test.length + inside.length + other.length + 2)
      (k + test.length + inside.length + other.length + 3)
  /-- To the next instruction, at the start of a loop. -/
  | enter {k test inside} : Jump (.loop k test inside) k (k + 1)
  /-- Out of a loop. -/
  | leave {k test inside} :
    Jump (.loop k test inside) (k + test.length + 1) (k + test.length + inside.length + 3)
  /-- Back to the condition of a loop. -/
  | back {k x test inside} :
    Jump (.loop k (x :: test) inside) (k + (x :: test).length + inside.length + 2) (k + 1)

/-- Where a jump goes: it belongs to this statement, forwards it goes to the end or to the `else` block, and
backwards to the condition of a loop. -/
structure Lands (span : Span) (place target : Nat) (offset : Int) : Prop where
  jump : span.Jump place target
  target_eq : (target : Int) = place + 1 + offset
  target_le : target ≤ span.stop
  forward : 0 < offset → target = span.stop ∨ span.elseStart? = some target
  backward : offset < 0 → span.testStart? = some target

variable {k : Nat} {test inside other : List Instr}

theorem stop_cond_none : (cond k test inside none).stop = k + test.length + inside.length + 2 := by
  simp only [stop, start, code, ifCode, List.length_append, List.length_singleton]
  omega

theorem stop_cond_some :
    (cond k test inside (some other)).stop = k + test.length + inside.length + other.length + 3 := by
  simp only [stop, start, code, ifCode, List.length_append, List.length_singleton]
  omega

theorem stop_loop : (loop k test inside).stop = k + test.length + inside.length + 3 := by
  simp only [stop, start, code, loopCode, List.length_append, List.length_singleton]
  omega

theorem Jump.lands {span : Span} {place target : Nat} {offset : Int} (h : span.Jump place target)
    (eq : (target : Int) = place + 1 + offset) : span.Lands place target offset := by
  have : target ≤ span.stop ∧ (0 < offset → target = span.stop ∨ span.elseStart? = some target) ∧
      (offset < 0 → span.testStart? = some target) := by
    cases h with
    | skip | join =>
      rw [stop_cond_none]
      exact ⟨Nat.le_refl _, fun _ => .inl rfl, fun neg => by omega⟩
    | skipElse | joinElse =>
      rw [stop_cond_some]
      exact ⟨Nat.le_refl _, fun _ => .inl rfl, fun neg => by omega⟩
    | skipToElse =>
      rw [stop_cond_some]
      exact ⟨by omega, fun _ => .inr rfl, fun neg => by omega⟩
    | enter =>
      rw [stop_loop]
      exact ⟨by omega, fun pos => by omega, fun neg => by omega⟩
    | leave =>
      rw [stop_loop]
      exact ⟨Nat.le_refl _, fun _ => .inl rfl, fun neg => by omega⟩
    | back =>
      rw [stop_loop]
      exact ⟨by omega, fun pos => by omega, fun _ => rfl⟩
  exact ⟨h, eq, this.1, this.2.1, this.2.2⟩

theorem length_code_pos (span : Span) : 0 < span.code.length := by
  cases span with
  | cond _ _ _ other => cases other <;> simp [code, ifCode]
  | loop => simp [code, loopCode]

/-- A statement lies inside the function that has its code. -/
theorem Placed.stop_le {m : Image} {j : Nat} {g : Function} {span : Span} (h : span.Placed m j)
    (found : m.functions[j]? = some g) : span.stop ≤ g.body.length := by
  have holds : m.Holds j span.start span.code := by
    cases span with
    | cond | loop => exact h.1
  have pos := span.length_code_pos
  have last := holds _ _ (List.getElem?_eq_getElem (Nat.sub_one_lt_of_lt pos))
  rw [Image.instr?, found] at last
  have lt := (List.getElem?_eq_some_iff.1 last).1
  unfold stop
  omega

end Span

/-! ### Generated code has no other jumps -/

/-- In code at place `k`, every jump belongs to one of these statements. -/
def JumpsOf (spans : List Span) (k : Nat) (code : List Instr) : Prop :=
  ∀ (i : Nat) (x : Instr), code[i]? = some x → x.opcode = .br →
    ∃ span ∈ spans, ∃ target offset, span.Lands (k + i) target offset ∧ x = jumpBy offset

section Jumps

variable {k target : Nat} {xs ys test inside : List Instr} {span : Span} {spans spans' : List Span}

theorem JumpsOf.mono (h : JumpsOf spans k xs) (sub : spans ⊆ spans') : JumpsOf spans' k xs := by
  intro i x hx br
  obtain ⟨span, mem, lands⟩ := h i x hx br
  exact ⟨span, sub mem, lands⟩

theorem JumpsOf.place {k' : Nat} (h : JumpsOf spans k xs) (eq : k = k') : JumpsOf spans k' xs :=
  eq ▸ h

theorem JumpsOf.append (hx : JumpsOf spans k xs) (hy : JumpsOf spans (k + xs.length) ys) :
    JumpsOf spans k (xs ++ ys) := by
  intro i x h br
  rw [List.getElem?_append] at h
  split at h
  · exact hx i x h br
  · obtain ⟨span, mem, lands⟩ := hy _ x h br
    rw [Nat.add_assoc, Nat.add_sub_cancel' (by omega)] at lands
    exact ⟨span, mem, lands⟩

theorem IsStraight.jumpsOf (h : IsStraight xs) : JumpsOf spans k xs := by
  intro i x hx br
  exact absurd br (h x (List.mem_of_getElem? hx)).1

theorem jumpsOf_jump {offset : Int} (mem : span ∈ spans) (goes : span.Jump k target)
    (eq : (target : Int) = k + 1 + offset) : JumpsOf spans k [jumpBy offset] := by
  intro i x hx _
  cases i with
  | zero =>
    cases hx
    exact ⟨span, mem, target, offset, goes.lands eq, rfl⟩
  | succ i => cases hx

/-- The jumps of a loop, and those of its block. -/
theorem jumpsOf_loopCode {x : Instr} (ht : IsStraight (x :: test))
    (hi : JumpsOf spans (k + (x :: test).length + 2) inside) :
    JumpsOf (.loop k (x :: test) inside :: spans) k (loopCode (x :: test) inside) := by
  have block := hi.mono (List.subset_cons_self (.loop k (x :: test) inside) spans)
  refine ((((jumpsOf_jump (.head _) .enter ?_).append ht.jumpsOf).append
    ((jumpsOf_jump (.head _) .leave ?_).place ?_)).append (block.place ?_)).append
    ((jumpsOf_jump (.head _) .back ?_).place ?_)
  all_goals
    simp -failIfUnchanged only [List.length_append, List.length_singleton]
    omega

/-- The jumps of a conditional statement, and those of its blocks. -/
theorem jumpsOf_ifCode {other : Option (List Instr)} (ht : IsStraight test)
    (hi : JumpsOf spans (k + test.length + 1) inside)
    (ho : ∀ code ∈ other, JumpsOf spans' (k + test.length + inside.length + 2) code) :
    JumpsOf (.cond k test inside other :: (spans ++ spans')) k (ifCode test inside other) := by
  have block := hi.mono (List.subset_cons_of_subset (.cond k test inside other)
    (List.subset_append_left spans spans'))
  cases other with
  | none =>
    refine ((ht.jumpsOf.append (jumpsOf_jump (.head _) .skip ?_)).append (block.place ?_)).append
      ((jumpsOf_jump (.head _) .join ?_).place ?_)
    all_goals
      simp -failIfUnchanged only [List.length_append, List.length_singleton]
      omega
  | some other =>
    have elseBlock := (ho other rfl).mono (List.subset_cons_of_subset (.cond k test inside (some other))
      (List.subset_append_right spans spans'))
    refine ((((ht.jumpsOf.append (jumpsOf_jump (.head _) .skipToElse ?_)).append (block.place ?_)).append
      ((jumpsOf_jump (.head _) .skipElse ?_).place ?_)).append (elseBlock.place ?_)).append
      ((jumpsOf_jump (.head _) .joinElse ?_).place ?_)
    all_goals
      simp -failIfUnchanged only [List.length_append, List.length_singleton]
      omega

end Jumps

/-- The condition of a loop has code: if its expression has none, the jump before it is the last operation,
and that is no conditional branch. -/
theorem Expr.genCond_jump_ne_nil (p : Point) (e : Expr) : (e.genCond p.jump).1 ≠ [] := by
  intro nil
  obtain ⟨code, test⟩ := List.append_eq_nil_iff.1 nil
  change e.code p.env p.data.length = [] at code
  simp only [Point.jump, code] at test
  cases test

mutual

theorem Stmt.jumpsOf_gen (p : Point) (k : Nat) : (s : Stmt) → JumpsOf (s.spans p k) k (s.gen p).1
  | .decl d => (d.isStraight_gen p).jumpsOf
  | .cond c => c.jumpsOf_gen p k
  | .loop c body => by
    obtain ⟨x, test, eq⟩ := List.exists_cons_of_ne_nil (c.genCond_jump_ne_nil p)
    have straight := c.isStraight_genCond p.jump
    have block := body.jumpsOf_gen (c.genCond p.jump).2.jump (k + (c.genCond p.jump).1.length + 2)
    simp only [Stmt.gen, Stmt.spans]
    rw [eq] at straight block ⊢
    exact jumpsOf_loopCode straight block
  | .ret _ value => (isStraight_genRet p value).jumpsOf
  | .block b => b.jumpsOf_gen p k
  | .empty => isStraight_nil.jumpsOf
  | .expr e => (e.isStraight_code _ _).jumpsOf

/-- Every jump in the code of a block belongs to one of its conditional statements and loops. -/
theorem Block.jumpsOf_gen (p : Point) (k : Nat) : (b : Block) → JumpsOf (b.spans p k) k (b.gen p).1
  | .close | .cutOff _ => isStraight_nil.jumpsOf
  | .stmt s rest =>
    ((s.jumpsOf_gen p k).mono (List.subset_append_left _ _)).append
      ((rest.jumpsOf_gen _ _).mono (List.subset_append_right _ _))

theorem IfChain.jumpsOf_gen (p : Point) (k : Nat) : (c : IfChain) → JumpsOf (c.spans p k) k (c.gen p).1
  | .mk e body otherwise =>
    jumpsOf_ifCode (e.isStraight_genCond p) (body.jumpsOf_gen _ _) (otherwise.jumpsOf_gen _ _)

theorem Else.jumpsOf_gen (p : Point) (k : Nat) :
    (o : Else) → ∀ code ∈ (o.gen p).1, JumpsOf (o.spans p k) k code
  | .absent => nofun
  | .block b => by
    rintro code ⟨⟩
    exact b.jumpsOf_gen p.jump k
  | .chain c => by
    rintro code ⟨⟩
    exact c.jumpsOf_gen p.jump k

end

end CZero
