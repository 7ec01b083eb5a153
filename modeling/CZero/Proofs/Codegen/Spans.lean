import CZero.Proofs.Codegen.Flow

/-!
# Conditional statements and loops in the code

Where the code of a statement has its conditional statements and loops, and what is known of all runs
that come to one of them.
-/

namespace CZero

/-! ### Straight and closed code -/

section Closed

variable {k n : Nat} {xs ys : List Instr}

theorem JumpsWithin.append (hx : JumpsWithin k n xs) (hy : JumpsWithin (k + xs.length) n ys) :
    JumpsWithin k n (xs ++ ys) := by
  intro i x h
  rw [List.getElem?_append] at h
  split at h
  · exact hx i x h
  · obtain ⟨br, cond⟩ := hy _ x h
    refine ⟨fun op => ?_, cond⟩
    obtain ⟨d, eq, ge, le⟩ := br op
    exact ⟨d, eq, by omega, by omega⟩

theorem IsClosed.jumpsWithin (h : IsClosed xs) (fits : k + xs.length ≤ n) : JumpsWithin k n xs := by
  intro i x hx
  obtain ⟨br, cond⟩ := h i x hx
  refine ⟨fun op => ?_, cond⟩
  obtain ⟨d, eq, ge, le⟩ := br op
  exact ⟨d, eq, by omega, by omega⟩

theorem jumpsWithin_jump {d : Int} (ge : 0 ≤ k + 1 + d) (le : k + 1 + d ≤ n) :
    JumpsWithin k n [jumpBy d] := by
  intro i x hx
  obtain ⟨rfl, rfl⟩ : i = 0 ∧ jumpBy d = x := by
    cases i with
    | zero => exact ⟨rfl, Option.some.inj hx⟩
    | succ i => cases hx
  exact ⟨fun _ => ⟨d, rfl, by omega, by omega⟩, nofun⟩

theorem IsClosed.append (hx : IsClosed xs) (hy : IsClosed ys) : IsClosed (xs ++ ys) := by
  unfold IsClosed
  rw [List.length_append]
  exact (hx.jumpsWithin (by omega)).append (hy.jumpsWithin (by omega))

/-- Code without jumps, in which conditional branches skip one instruction. -/
def IsStraight (code : List Instr) : Prop :=
  ∀ x ∈ code, x.opcode ≠ .br ∧ (x.opcode.isConditional → x.operand = some 1)

theorem IsStraight.isClosed (h : IsStraight xs) : IsClosed xs := by
  intro i x hx
  obtain ⟨noJump, cond⟩ := h x (List.mem_of_getElem? hx)
  exact ⟨fun br => absurd br noJump, cond⟩

theorem isStraight_nil : IsStraight [] :=
  List.forall_mem_nil _

theorem IsStraight.append (hx : IsStraight xs) (hy : IsStraight ys) : IsStraight (xs ++ ys) :=
  List.forall_mem_append.2 ⟨hx, hy⟩

theorem isStraight_singleton {x : Instr} (branch : x.opcode.isBranch = false) : IsStraight [x] := by
  refine List.forall_mem_singleton.2 ?_
  cases op : x.opcode with
  | br | brtrue | brfalse =>
    rw [op] at branch
    cases branch
  | _ => exact ⟨nofun, nofun⟩

theorem isStraight_replicate {n : Nat} {x : Instr} (branch : x.opcode.isBranch = false) :
    IsStraight (List.replicate n x) := by
  intro y mem
  obtain rfl := List.eq_of_mem_replicate mem
  exact isStraight_singleton branch y (List.mem_singleton_self y)

end Closed

/-! ### Expressions have straight code -/

theorem Slot.isStraight_code (r : Nat) (slot : Slot) : IsStraight (slot.code r) := by
  cases slot with
  | arg | loc | glob => exact isStraight_singleton rfl
  | fn => exact isStraight_nil

theorem Env.isStraight_address (ρ : Env) (name : Ident) : IsStraight (ρ.address name) := by
  unfold Env.address
  split
  · exact Slot.isStraight_code _ _
  · exact isStraight_nil

theorem CompareOp.isStraight_code (op : CompareOp) : IsStraight op.code := by
  unfold IsStraight
  cases op <;> decide

theorem isStraight_callOf (index : Nat) : IsStraight [callOf index] := by
  unfold callOf
  split <;> exact isStraight_singleton rfl

mutual

theorem Expr.isStraight_code (ρ : Env) (n : Nat) : (e : Expr) → IsStraight (e.code ρ n)
  | .hole _ | .cutOff _ _ | .double _ => isStraight_nil
  | .uint _ | .string _ | .char _ => isStraight_singleton rfl
  | .load name => (ρ.isStraight_address name).append (isStraight_singleton rfl)
  | .assign name e =>
    ((ρ.isStraight_address name).append (e.isStraight_code ρ n)).append (isStraight_singleton rfl)
  | .call name args => by
    unfold Expr.code
    split
    · next index ret _ =>
      have first : IsStraight [.withOperand .stackalloc (Int64.ofNat ret.returnSlots)] :=
        isStraight_singleton rfl
      exact first.append ((args.isStraight_code ρ n).append (isStraight_callOf index))
    · exact isStraight_nil
  | .paren e | .cast e _ => e.isStraight_code ρ n
  | .neg _ e => (e.isStraight_code ρ n).append (isStraight_replicate rfl)
  | .arith op lhs rhs => by
    refine ((lhs.isStraight_code ρ n).append (rhs.isStraight_code ρ _)).append (isStraight_singleton ?_)
    cases op <;> rfl
  | .compare op lhs rhs =>
    ((lhs.isStraight_code ρ n).append (rhs.isStraight_code ρ _)).append op.isStraight_code

theorem Args.isStraight_code (ρ : Env) (n : Nat) : (as : Args) → IsStraight (as.code ρ n)
  | .close | .cutOff _ => isStraight_nil
  | .arg e rest => (e.isStraight_code ρ n).append (rest.isStraight_code ρ _)

end

theorem Expr.isStraight_genCond (p : Point) (e : Expr) : IsStraight (e.genCond p).1 := by
  refine (e.isStraight_code _ _).append ?_
  unfold Point.test
  split
  · exact isStraight_nil
  · unfold IsStraight
    decide

theorem isStraight_genStore {p : Point} {address : List Instr} (h : IsStraight address) (e : Expr) :
    IsStraight (e.genStore p address).1 :=
  (h.append (e.isStraight_code _ _)).append (isStraight_singleton rfl)

theorem Decl.isStraight_gen (p : Point) (d : Decl) : IsStraight (d.gen p).1 := by
  unfold Decl.gen
  cases d.init with
  | none => exact isStraight_nil
  | some e => exact isStraight_genStore (Slot.isStraight_code _ _) e

theorem isStraight_genRet (p : Point) (value : Option Expr) : IsStraight (genRet p value).1 := by
  cases value with
  | none => exact isStraight_singleton rfl
  | some e =>
    exact (isStraight_genStore (isStraight_singleton rfl) e).append (isStraight_singleton rfl)

/-! ### Statements have closed code -/

theorem isClosed_ifCode {test inside : List Instr} {other : Option (List Instr)} (ht : IsClosed test)
    (hi : IsClosed inside) (ho : ∀ code ∈ other, IsClosed code) : IsClosed (ifCode test inside other) := by
  unfold IsClosed
  cases other with
  | none =>
    simp only [ifCode, List.length_append, List.length_singleton]
    refine (((ht.jumpsWithin ?_).append (jumpsWithin_jump ?_ ?_)).append (hi.jumpsWithin ?_)).append
      (jumpsWithin_jump ?_ ?_)
    all_goals simp -failIfUnchanged only [List.length_append, List.length_singleton]; omega
  | some other =>
    simp only [ifCode, List.length_append, List.length_singleton]
    refine (((((ht.jumpsWithin ?_).append (jumpsWithin_jump ?_ ?_)).append (hi.jumpsWithin ?_)).append
      (jumpsWithin_jump ?_ ?_)).append ((ho other rfl).jumpsWithin ?_)).append (jumpsWithin_jump ?_ ?_)
    all_goals simp -failIfUnchanged only [List.length_append, List.length_singleton]; omega

theorem isClosed_loopCode {test inside : List Instr} (ht : IsClosed test) (hi : IsClosed inside) :
    IsClosed (loopCode test inside) := by
  unfold IsClosed
  simp only [loopCode, List.length_append, List.length_singleton]
  refine ((((jumpsWithin_jump ?_ ?_).append (ht.jumpsWithin ?_)).append (jumpsWithin_jump ?_ ?_)).append
    (hi.jumpsWithin ?_)).append (jumpsWithin_jump ?_ ?_)
  all_goals simp -failIfUnchanged only [List.length_append, List.length_singleton]; omega

mutual

theorem Stmt.isClosed_gen (p : Point) : (s : Stmt) → IsClosed (s.gen p).1
  | .decl d => (d.isStraight_gen p).isClosed
  | .cond c => c.isClosed_gen p
  | .loop c body => isClosed_loopCode (c.isStraight_genCond _).isClosed (body.isClosed_gen _)
  | .ret _ value => (isStraight_genRet p value).isClosed
  | .block b => b.isClosed_gen p
  | .empty => isStraight_nil.isClosed
  | .expr e => (e.isStraight_code _ _).isClosed

theorem Block.isClosed_gen (p : Point) : (b : Block) → IsClosed (b.gen p).1
  | .close | .cutOff _ => isStraight_nil.isClosed
  | .stmt s rest => (s.isClosed_gen p).append (rest.isClosed_gen _)

theorem IfChain.isClosed_gen (p : Point) : (c : IfChain) → IsClosed (c.gen p).1
  | .mk e body otherwise =>
    isClosed_ifCode (e.isStraight_genCond p).isClosed (body.isClosed_gen _) (otherwise.isClosed_gen _)

theorem Else.isClosed_gen (p : Point) : (o : Else) → ∀ code ∈ (o.gen p).1, IsClosed code
  | .absent => nofun
  | .block b => by
    intro code h
    cases h
    exact b.isClosed_gen p.jump
  | .chain c => by
    intro code h
    cases h
    exact c.isClosed_gen p.jump

end

/-! ### Where conditional statements and loops are -/

/-- The code of a conditional statement or of a loop, and its place. -/
inductive Span where
  | cond (start : Nat) (test inside : List Instr) (other : Option (List Instr))
  | loop (start : Nat) (test inside : List Instr)
deriving DecidableEq

mutual

/-- The conditional statements and loops in a statement, whose code is at place `k`. -/
def Stmt.spans (p : Point) (k : Nat) : Stmt → List Span
  | .cond c => c.spans p k
  | .loop c body =>
    let (test, q) := c.genCond p.jump
    .loop k test (body.gen q.jump).1 :: body.spans q.jump (k + test.length + 2)
  | .block b => b.spans p k
  | .decl _ | .ret _ _ | .empty | .expr _ => []

/-- The conditional statements and loops in a block. -/
def Block.spans (p : Point) (k : Nat) : Block → List Span
  | .close | .cutOff _ => []
  | .stmt s rest =>
    let (code, q) := s.gen p
    s.spans p k ++ rest.spans q (k + code.length)

/-- A conditional statement, and the conditional statements and loops in its blocks. -/
def IfChain.spans (p : Point) (k : Nat) : IfChain → List Span
  | .mk c body otherwise =>
    let (test, q) := c.genCond p
    let (inside, r) := body.gen q.jump
    .cond k test inside (otherwise.gen r).1 ::
      (body.spans q.jump (k + test.length + 1) ++ otherwise.spans r (k + test.length + inside.length + 2))

/-- The conditional statements and loops in what follows a conditional block. -/
def Else.spans (p : Point) (k : Nat) : Else → List Span
  | .absent => []
  | .block b => b.spans p.jump k
  | .chain c => c.spans p.jump k

end

/-- The code is where a span says, and its parts are closed. -/
def Span.Placed (m : Image) (j : Nat) : Span → Prop
  | .cond k test inside other =>
    m.Holds j k (ifCode test inside other) ∧ IsClosed test ∧ IsClosed inside ∧
      ∀ code ∈ other, IsClosed code
  | .loop k test inside => m.Holds j k (loopCode test inside) ∧ IsClosed test ∧ IsClosed inside

section Placed

variable {m : Image} {j k : Nat} {test inside : List Instr}

/-- The parts of a loop, each with the jump behind it. -/
theorem holds_loopCode (h : m.Holds j k (loopCode test inside)) :
    m.Holds j (k + 1) (test ++ [jumpBy (inside.length + 1)]) ∧
    m.Holds j (k + test.length + 2) (inside ++ [jumpBy (-(test.length + inside.length + 2))]) := by
  simp only [loopCode, Image.holds_append, List.length_append, List.length_singleton] at h ⊢
  obtain ⟨⟨⟨⟨-, condition⟩, skip⟩, body⟩, back⟩ := h
  exact ⟨⟨condition, skip.place (by omega)⟩, body.place (by omega), back.place (by omega)⟩

/-- The parts of a conditional statement without `else`, each with the jump behind it. -/
theorem holds_ifCode_none (h : m.Holds j k (ifCode test inside none)) :
    m.Holds j k (test ++ [jumpBy (inside.length + 1)]) ∧
    m.Holds j (k + test.length + 1) (inside ++ [jumpBy 0]) := by
  simp only [ifCode, Image.holds_append, List.length_append, List.length_singleton] at h ⊢
  obtain ⟨⟨⟨condition, skip⟩, body⟩, join⟩ := h
  exact ⟨⟨condition, skip⟩, body.place (by omega), join.place (by omega)⟩

/-- The parts of a conditional statement with `else`, each with the jump behind it. -/
theorem holds_ifCode_some {other : List Instr} (h : m.Holds j k (ifCode test inside (some other))) :
    m.Holds j k (test ++ [jumpBy (inside.length + 1)]) ∧
    m.Holds j (k + test.length + 1) (inside ++ [jumpBy (other.length + 1)]) ∧
    m.Holds j (k + test.length + inside.length + 2) (other ++ [jumpBy 0]) := by
  simp only [ifCode, Image.holds_append, List.length_append, List.length_singleton] at h ⊢
  obtain ⟨⟨⟨⟨⟨condition, skip⟩, body⟩, skipOther⟩, otherwise⟩, join⟩ := h
  exact ⟨⟨condition, skip⟩, ⟨body.place (by omega), skipOther.place (by omega)⟩,
    otherwise.place (by omega), join.place (by omega)⟩

mutual

theorem Stmt.placed_spans {p : Point} {k : Nat} :
    (s : Stmt) → m.Holds j k (s.gen p).1 → ∀ span ∈ s.spans p k, span.Placed m j
  | .decl _, _ | .ret _ _, _ | .empty, _ | .expr _, _ => nofun
  | .cond c, h => c.placed_spans h
  | .block b, h => b.placed_spans h
  | .loop c body, h => by
    refine List.forall_mem_cons.2 ⟨⟨h, (c.isStraight_genCond _).isClosed, body.isClosed_gen _⟩, ?_⟩
    exact body.placed_spans (Image.holds_append.1 (holds_loopCode h).2).1

theorem Block.placed_spans {p : Point} {k : Nat} :
    (b : Block) → m.Holds j k (b.gen p).1 → ∀ span ∈ b.spans p k, span.Placed m j
  | .close, _ | .cutOff _, _ => nofun
  | .stmt s rest, h => by
    obtain ⟨first, more⟩ := Image.holds_append.1 h
    exact List.forall_mem_append.2 ⟨s.placed_spans first, rest.placed_spans more⟩

theorem IfChain.placed_spans {p : Point} {k : Nat} :
    (c : IfChain) → m.Holds j k (c.gen p).1 → ∀ span ∈ c.spans p k, span.Placed m j
  | .mk c body otherwise, h => by
    refine List.forall_mem_cons.2
      ⟨⟨h, (c.isStraight_genCond _).isClosed, body.isClosed_gen _, otherwise.isClosed_gen _⟩, ?_⟩
    rw [IfChain.gen] at h
    dsimp only at h
    refine List.forall_mem_append.2 ⟨body.placed_spans ?_, otherwise.placed_spans ?_⟩
    · cases eq : (otherwise.gen (body.gen (c.genCond p).2.jump).2).1 with
      | none =>
        rw [eq] at h
        exact (Image.holds_append.1 (holds_ifCode_none h).2).1
      | some other =>
        rw [eq] at h
        exact (Image.holds_append.1 (holds_ifCode_some h).2.1).1
    · intro other eq
      have eq : (otherwise.gen (body.gen (c.genCond p).2.jump).2).1 = some other := eq
      rw [eq] at h
      exact (Image.holds_append.1 (holds_ifCode_some h).2.2).1

theorem Else.placed_spans {p : Point} {k : Nat} :
    (o : Else) → (∀ code ∈ (o.gen p).1, m.Holds j k code) → ∀ span ∈ o.spans p k, span.Placed m j
  | .absent, _ => nofun
  | .block b, h => b.placed_spans (h _ rfl)
  | .chain c, h => c.placed_spans (h _ rfl)

end

end Placed

/-! ### The law of conditional statements and loops -/

/-- What is known of all runs that come to a conditional statement or a loop in the code of function `j`.
The condition `c` goes on with the block `a` behind it or skips it; what ends the block `a` goes on behind
the whole statement, or at the condition of the loop. A block that ends in a conditional branch may also
go on just behind itself: in the block `b` that was to be skipped, or behind the loop. -/
def Span.Lawful (m : Image) (j : Nat) : Span → Prop
  | .cond k test inside none =>
    let c : Piece := ⟨k, test⟩
    let a : Piece := ⟨c.past, inside⟩
    c.Law m j a.past ∧ a.Law m j a.past
  | .cond k test inside (some other) =>
    let c : Piece := ⟨k, test⟩
    let a : Piece := ⟨c.past, inside⟩
    let b : Piece := ⟨a.past, other⟩
    c.Law m j b.start ∧ a.Law m j b.past ∧ b.Law m j b.past
  | .loop k test inside =>
    let c : Piece := ⟨k + 1, test⟩
    let a : Piece := ⟨c.past, inside⟩
    c.Law m j a.past ∧ a.Law m j c.start

/-- The code of function `j` is short enough for offsets. -/
def Image.Fits (m : Image) (j : Nat) : Prop :=
  ∀ f, m.functions[j]? = some f → f.body.length < 2 ^ 64

theorem Image.Fits.past_lt {m : Image} {j : Nat} (h : m.Fits j) {z : Piece} {n : Int}
    (holds : m.Holds j z.start (z.code ++ [jumpBy n])) : z.past < 2 ^ 64 := by
  have last := (Image.holds_cons.1 (Image.holds_append.1 holds).2).1
  unfold Image.instr? at last
  obtain ⟨f, hf, hx⟩ := Option.bind_eq_some_iff.1 last
  have lt := (List.getElem?_eq_some_iff.1 hx).1
  have := h f hf
  unfold Piece.past Piece.jump
  omega

theorem Span.Placed.lawful {m : Image} {j : Nat} {span : Span} (fits : m.Fits j)
    (h : span.Placed m j) : span.Lawful m j := by
  cases span with
  | loop k test inside =>
    obtain ⟨holds, ht, hi⟩ := h
    obtain ⟨condition, body⟩ := holds_loopCode holds
    have body := body.place (show _ = (⟨k + 1, test⟩ : Piece).past by simp [Piece.past, Piece.jump]; omega)
    have lt := fits.past_lt (z := ⟨k + 1, test⟩) condition
    have lt' := fits.past_lt (z := ⟨_, inside⟩) body
    refine ⟨Piece.law condition ht lt lt' ?_, Piece.law body hi lt' ?_ ?_⟩
    all_goals simp only [Piece.past, Piece.jump] at *; omega
  | cond k test inside other =>
    obtain ⟨holds, ht, hi, ho⟩ := h
    cases other with
    | none =>
      obtain ⟨condition, body⟩ := holds_ifCode_none holds
      have lt := fits.past_lt (z := ⟨k, test⟩) condition
      have lt' := fits.past_lt (z := ⟨_, inside⟩) body
      refine ⟨Piece.law condition ht lt lt' ?_, Piece.law body hi lt' lt' ?_⟩
      all_goals simp only [Piece.past, Piece.jump] at *; omega
    | some other =>
      obtain ⟨condition, body, otherwise⟩ := holds_ifCode_some holds
      let a : Piece := ⟨k + test.length + 1, inside⟩
      have otherwise := otherwise.place (show _ = a.past by simp only [Piece.past, Piece.jump, a]; omega)
      have lt := fits.past_lt (z := ⟨k, test⟩) condition
      have lt' := fits.past_lt (z := a) body
      have lt'' := fits.past_lt (z := ⟨a.past, other⟩) otherwise
      refine ⟨Piece.law condition ht lt lt' ?_, Piece.law body hi lt' lt'' ?_,
        Piece.law otherwise (ho other rfl) lt'' lt'' ?_⟩
      all_goals simp only [Piece.past, Piece.jump]; omega

end CZero
