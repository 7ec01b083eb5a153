import CZero.Proofs.Codegen.References
import CZero.Proofs.Codegen.Spans
import CZero.Proofs.Machine.Sound
import CZero.Proofs.Semantics.Balanced

/-!
# The marks of generated code

In a balanced program the code of an expression leaves as many values as the expression does, and the code of
a statement leaves no address. So marks can be followed through all that is generated (`Expr.scan_code`,
`Stmt.tracks_gen`).

    x = a + 1     loca x, loca a, load64, push 1, addi, store64
    marks         [], [own], [own, own], [own, value], [own, value, value], [own, value], []

Jumps are generated for conditional statements and loops only. Each goes right behind another one, where no marks
are left, and the branch that ends a condition skips the jump behind it.
-/

namespace CZero

/-! ### Following marks -/

section Scan

variable {m : Image} {w : Nat → Bool} {M : List Mark}

@[simp] theorem Image.scan_nil : m.scan w M [] = some M := rfl

@[simp] theorem Image.scan_cons (i : Instr) (code : List Instr) :
    m.scan w M (i :: code) = (i.after? m w M).bind (m.scan w · code) := by
  rw [scan, List.foldlM_cons]
  rfl

@[simp] theorem Image.scan_append (code more : List Instr) :
    m.scan w M (code ++ more) = (m.scan w M code).bind (m.scan w · more) := by
  rw [scan, List.foldlM_append]
  rfl

@[simp] theorem Mark.exchange_zero (n : Nat) : Mark.exchange 0 n M = some (List.replicate n .value ++ M) := by
  simp [exchange]

@[simp] theorem Mark.exchange_one (n : Nat) (x : Mark) :
    Mark.exchange 1 n (x :: M) = some (List.replicate n .value ++ M) := by
  simp [exchange]

@[simp] theorem Mark.exchange_two (n : Nat) (x y : Mark) :
    Mark.exchange 2 n (x :: y :: M) = some (List.replicate n .value ++ M) := by
  simp [exchange]

@[simp] theorem after?_push (v : Int64) :
    (Instr.withOperand .push v).after? m w M = some (.value :: M) := by
  simp [Instr.after?, Instr.withOperand]

@[simp] theorem after?_load64 (x : Mark) : (Instr.plain .load64).after? m w (x :: M) = some (.value :: M) := by
  simp [Instr.after?, Instr.plain]

@[simp] theorem after?_negi (x : Mark) : (Instr.plain .negi).after? m w (x :: M) = some (.value :: M) := by
  simp [Instr.after?, Instr.plain]

@[simp] theorem Image.scan_negi (n : Nat) :
    m.scan w (.value :: M) (List.replicate n (.plain .negi)) = some (.value :: M) := by
  induction n with
  | zero => rfl
  | succ n ih => rw [List.replicate_succ, scan_cons, after?_negi, Option.bind_some, ih]

@[simp] theorem after?_arith (op : ArithOp) (x y : Mark) :
    op.instr.after? m w (x :: y :: M) = some (.value :: M) := by
  cases op <;> simp [Instr.after?, Instr.plain, ArithOp.instr]

theorem after?_stackalloc {n : Nat} (lt : n < 2 ^ 63) :
    (Instr.withOperand .stackalloc (Int64.ofNat n)).after? m w M = some (List.replicate n .value ++ M) := by
  simp [Instr.after?, Instr.withOperand, Instr.index?, Action.index?_ofNat lt]

theorem after?_globa {n : Nat} (lt : n < 2 ^ 62) :
    (Instr.withOperand .globa (Int64.ofNat n)).after? m w M = some (.global n :: M) := by
  simp only [Instr.after?, Instr.withOperand, Instr.index?, Option.bind_some,
    Action.index?_ofNat (show n < 2 ^ 63 by omega), if_pos lt]

@[simp] theorem after?_jumpBy (d : Int) : (jumpBy d).after? m w M = some [] := rfl

theorem after?_store64 : (Instr.plain .store64).after? m w M = Mark.store w M := rfl

theorem IsCalm.append {M N : List Mark} (hM : IsCalm M) (hN : IsCalm N) : IsCalm (M ++ N) :=
  fun x mem => (List.mem_append.1 mem).elim (hM x) (hN x)

theorem isCalm_replicate (n : Nat) : IsCalm (List.replicate n .value) :=
  fun _ mem => List.eq_of_mem_replicate mem

theorem isCalm_nil : IsCalm [] :=
  List.forall_mem_nil _

end Scan

/-! ### Expressions -/

/-- Marks can be followed through what the names in scope stand for: an address is marked as one, through which
a variable can be stored to unless it is constant, and a call takes its arguments. -/
structure Env.IsMarked (ρ : Env) (p : Program) (m : Image) (w : Nat → Bool) : Prop where
  address : ∀ {x slot ty isConst}, ρ.find? x = some (.var slot ty isConst) →
    ∃ a, (∀ M, m.scan w M (slot.code ρ.ret.returnSlots) = some (a :: M)) ∧
      (isConst = false → ∀ M, IsCalm M → Mark.store w (.value :: a :: M) = some M)
  call : ∀ {x index ret f}, ρ.find? x = some (.fn index ret) → p.callee? x = some f →
    f.ret = ret ∧ ∀ M, (ret.returnSlots = 0 → IsCalm M) →
      (callOf index).after? m w (List.replicate f.arity .value ++ List.replicate ret.returnSlots .value ++ M)
        = some (List.replicate ret.returnSlots .value ++ M)

/-- Marks can be followed through what a program declares outside of functions. -/
structure Roster.IsMarked (r : Roster) (p : Program) (m : Image) (w : Nat → Bool) : Prop where
  small : r.globals.length ≤ 2 ^ 62
  writable : ∀ {i name}, r.globals[i]? = some (.scalar name false) → w i
  call : ∀ {x index ret f}, r.Has x (.fn index ret) → p.callee? x = some f →
    f.ret = ret ∧ ∀ M, (ret.returnSlots = 0 → IsCalm M) →
      (callOf index).after? m w (List.replicate f.arity .value ++ List.replicate ret.returnSlots .value ++ M)
        = some (List.replicate ret.returnSlots .value ++ M)

theorem Env.Agrees.isMarked {ρ : Env} {r : Roster} {fr : Shape} {σ : List String} (h : ρ.Agrees r fr σ)
    {p : Program} {m : Image} {w : Nat → Bool} (known : r.IsMarked p m w) : ρ.IsMarked p m w where
  address := by
    intro x slot ty isConst found
    by_cases mem : x ∈ σ
    · obtain ⟨ty', isConst', own⟩ := h.own x mem
      rw [found] at own
      cases own
      refine ⟨.own, fun M => ?_, fun _ M calm => by simp [Mark.store, calm]⟩
      unfold Slot.ofVariable
      split <;> rfl
    · obtain ⟨i, rfl, at_i⟩ := h.outer x mem _ found
      have lt : i < 2 ^ 62 := Nat.lt_of_lt_of_le (List.getElem?_eq_some_iff.1 at_i).1 known.small
      refine ⟨.global i, fun M => ?_, fun var M calm => ?_⟩
      · simp [Slot.code, after?_globa lt]
      · subst var
        simp [Mark.store, calm, known.writable at_i]
  call found := known.call (h.has_callee found)

section Expressions

variable {p : Program} {m : Image} {w : Nat → Bool} {ρ : Env}

mutual

/-- The code of an expression leaves as many values as the expression. -/
theorem Expr.scan_code (h : ρ.IsMarked p m w) {k n : Nat} {M : List Mark} : (e : Expr) → (e.type? ρ).isSome →
    e.yield? p = some n → (n = 0 → IsCalm M) →
    m.scan w M (e.code ρ k) = some (List.replicate n .value ++ M)
  | .hole _, _, yields, _ | .cutOff _ _, _, yields, _ | .compare _ _ _, _, yields, _ => by
    simp [Expr.yield?] at yields
  | .double _, _, yields, _ | .uint _, _, yields, _ | .string _, _, yields, _ | .char _, _, yields, _ => by
    rw [Expr.yield?, Option.some.injEq] at yields
    subst yields
    simp [Expr.code]
  | .load name, typed, yields, _ => by
    rw [Expr.yield?, Option.some.injEq] at yields
    subst yields
    rw [Expr.type?] at typed
    split at typed
    case h_2 => cases typed
    case h_1 found =>
      obtain ⟨a, address, -⟩ := h.address found
      simp [Expr.code, Env.address, found, address]
  | .assign name e, typed, yields, calm => by
    obtain ⟨value, rfl⟩ : e.yield? p = some 1 ∧ 0 = n := by simpa [Expr.yield?] using yields
    rw [Expr.type?] at typed
    split at typed
    case h_2 => cases typed
    case h_1 found inner =>
      obtain ⟨a, address, store⟩ := h.address found
      have code := e.scan_code h (k := k) (M := a :: M) (by rw [inner]; rfl) value (absurd · Nat.one_ne_zero)
      simp only [Expr.code, Env.address, found, Image.scan_append, address, Option.bind_some, code,
        Image.scan_cons, after?_store64, Image.scan_nil]
      rw [show List.replicate 1 Mark.value ++ a :: M = .value :: a :: M from rfl, store rfl M (calm rfl)]
      rfl
  | .call name args, typed, yields, calm => by
    rw [Expr.yield?] at yields
    split at yields
    case h_2 => cases yields
    case h_1 f callee =>
      obtain ⟨⟨count, values⟩, eq⟩ := Option.ite_none_right_eq_some.1 yields
      rw [Expr.type?] at typed
      split at typed
      case h_2 => cases typed
      case h_1 index ret found =>
        have args_typed : args.typed ρ := by
          by_contra no
          rw [if_neg no] at typed
          cases typed
        obtain ⟨rfl, call⟩ := h.call found callee
        rw [Option.some.injEq] at eq
        subst eq
        simp only [Expr.code, found, List.cons_append, Image.scan_cons, Image.scan_append,
          after?_stackalloc (Nat.lt_of_le_of_lt f.ret.returnSlots_le (by decide)), Option.bind_some, args.scan_code h args_typed values, count,
          ← List.append_assoc, call M calm, Image.scan_nil]
  | .paren e, typed, yields, calm => e.scan_code h typed yields calm
  | .cast e _, typed, yields, calm => by
    rw [Expr.type?] at typed
    split at typed
    case isFalse => cases typed
    case isTrue => exact e.scan_code h typed yields calm
  | .neg signs e, typed, yields, calm => by
    obtain ⟨value, rfl⟩ : e.yield? p = some 1 ∧ 1 = n := by simpa [Expr.yield?] using yields
    simp [Expr.code, e.scan_code h (k := k) (M := M) typed value (absurd · Nat.one_ne_zero)]
  | .arith op lhs rhs, typed, yields, calm => by
    obtain ⟨⟨left, right⟩, rfl⟩ : (lhs.yield? p = some 1 ∧ rhs.yield? p = some 1) ∧ 1 = n := by
      simpa [Expr.yield?] using yields
    rw [Expr.type?] at typed
    split at typed
    case isFalse => cases typed
    case isTrue also =>
      have first := lhs.scan_code h (k := k) (M := M) typed left (absurd · Nat.one_ne_zero)
      have second := rhs.scan_code h (k := k + lhs.texts.length) (M := .value :: M) also right
        (absurd · Nat.one_ne_zero)
      simp [Expr.code, first, second]

theorem Args.scan_code (h : ρ.IsMarked p m w) {k : Nat} {M : List Mark} : (as : Args) → as.typed ρ →
    as.areValues p → m.scan w M (as.code ρ k) = some (List.replicate as.count .value ++ M)
  | .close, _, _ | .cutOff _, _, _ => rfl
  | .arg e rest, typed, values => by
    rw [Args.typed, Bool.and_eq_true] at typed
    rw [Args.areValues, Bool.and_eq_true, decide_eq_true_eq] at values
    have first := e.scan_code h (k := k) (M := M) typed.1 values.1 (absurd · Nat.one_ne_zero)
    have more := rest.scan_code h (k := k + e.texts.length) (M := .value :: M) typed.2 values.2
    simp only [Args.code, Image.scan_append, first, Option.bind_some]
    rw [show List.replicate 1 Mark.value ++ M = .value :: M from rfl, more, Args.count, List.replicate_succ']
    simp

end

theorem Expr.scan_value (h : ρ.IsMarked p m w) {e : Expr} (typed : (e.type? ρ).isSome) (value : e.isValue p)
    (k : Nat) (M : List Mark) : m.scan w M (e.code ρ k) = some (.value :: M) :=
  e.scan_code h typed (of_decide_eq_true value) (absurd · Nat.one_ne_zero)

/-- The code of a value is not empty. -/
theorem Expr.code_ne_nil (h : ρ.IsMarked p m w) {e : Expr} (typed : (e.type? ρ).isSome) (value : e.isValue p)
    (k : Nat) : e.code ρ k ≠ [] := by
  intro nil
  have scan := Expr.scan_value h typed value k []
  rw [nil] at scan
  cases scan

end Expressions

/-! ### Branches -/

section Branches

variable {p : Program}

theorem Env.isBranch_address (ρ : Env) (name : Ident) : ∀ i ∈ ρ.address name, i.opcode.isBranch = false := by
  unfold Env.address
  split
  case h_1 slot _ _ _ => cases slot <;> simp [Slot.code, Instr.withOperand, Opcode.isBranch]
  case h_2 => exact List.forall_mem_nil _

theorem isBranch_callOf (index : Nat) : (callOf index).opcode.isBranch = false := by
  unfold callOf
  split <;> rfl

mutual

/-- Only comparisons have branches. -/
theorem Expr.isBranch_code (ρ : Env) (k : Nat) :
    (e : Expr) → (e.yield? p).isSome → ∀ i ∈ e.code ρ k, i.opcode.isBranch = false
  | .hole _, yields | .cutOff _ _, yields | .compare _ _ _, yields => by simp [Expr.yield?] at yields
  | .double _, _ => List.forall_mem_nil _
  | .uint _, _ | .string _, _ | .char _, _ => List.forall_mem_singleton.2 rfl
  | .load name, _ => List.forall_mem_append.2 ⟨ρ.isBranch_address name, List.forall_mem_singleton.2 rfl⟩
  | .assign name e, yields => by
    have value : e.yield? p = some 1 := by simpa [Expr.yield?] using yields
    have inner := e.isBranch_code ρ k (by rw [value]; rfl)
    exact List.forall_mem_append.2 ⟨List.forall_mem_append.2 ⟨ρ.isBranch_address name, inner⟩,
      List.forall_mem_singleton.2 rfl⟩
  | .call name args, yields => by
    rw [Expr.yield?] at yields
    rw [Expr.code]
    split at yields
    case h_2 => cases yields
    case h_1 =>
      have values : args.areValues p := by
        by_contra no
        rw [if_neg fun both => no both.2] at yields
        cases yields
      split
      case h_2 => exact List.forall_mem_nil _
      case h_1 index _ _ =>
        refine List.forall_mem_append.2 ⟨List.forall_mem_cons.2 ⟨rfl, args.isBranch_code ρ k values⟩, ?_⟩
        exact List.forall_mem_singleton.2 (isBranch_callOf index)
  | .paren e, yields | .cast e _, yields => e.isBranch_code ρ k yields
  | .neg signs e, yields => by
    have value : e.yield? p = some 1 := by simpa [Expr.yield?] using yields
    refine List.forall_mem_append.2 ⟨e.isBranch_code ρ k (by rw [value]; rfl), fun i mem => ?_⟩
    obtain rfl := List.eq_of_mem_replicate mem
    rfl
  | .arith op lhs rhs, yields => by
    obtain ⟨left, right⟩ : lhs.yield? p = some 1 ∧ rhs.yield? p = some 1 := by simpa [Expr.yield?] using yields
    have first := lhs.isBranch_code ρ k (by rw [left]; rfl)
    have second := rhs.isBranch_code ρ (k + lhs.texts.length) (by rw [right]; rfl)
    refine List.forall_mem_append.2 ⟨List.forall_mem_append.2 ⟨first, second⟩, ?_⟩
    exact List.forall_mem_singleton.2 (by cases op <;> rfl)

theorem Args.isBranch_code (ρ : Env) (k : Nat) :
    (as : Args) → as.areValues p → ∀ i ∈ as.code ρ k, i.opcode.isBranch = false
  | .close, _ | .cutOff _, _ => List.forall_mem_nil _
  | .arg e rest, values => by
    rw [Args.areValues, Bool.and_eq_true, decide_eq_true_eq] at values
    have first := e.isBranch_code ρ k (by rw [values.1]; rfl)
    exact List.forall_mem_append.2 ⟨first, rest.isBranch_code ρ _ values.2⟩

end

end Branches

/-- A branch at this place of function `j` goes right behind a jump. -/
def Image.Lands (m : Image) (j pc : Nat) (i : Instr) : Prop :=
  i.opcode.isBranch → ∃ (d : Int) (n : Nat) (e : Int), i.operand = some (Int64.ofInt d) ∧ (n : Int) = pc + d ∧
    m.instr? j n = some (jumpBy e)

/-- The branches of code at place `k` of function `j` go right behind jumps. -/
def Image.AllLand (m : Image) (j k : Nat) (code : List Instr) : Prop :=
  ∀ i x, code[i]? = some x → m.Lands j (k + i) x

section Lands

variable {m : Image} {j k : Nat} {xs ys : List Instr}

theorem Image.AllLand.append (hx : m.AllLand j k xs) (hy : m.AllLand j (k + xs.length) ys) :
    m.AllLand j k (xs ++ ys) := by
  intro i x at_i
  rw [List.getElem?_append] at at_i
  split at at_i
  · exact hx i x at_i
  · have lands := hy _ x at_i
    rwa [Nat.add_assoc, Nat.add_sub_cancel' (by omega)] at lands

theorem Image.AllLand.place {k' : Nat} (h : m.AllLand j k xs) (eq : k = k') : m.AllLand j k' xs :=
  eq ▸ h

theorem Image.allLand_of_forall (h : ∀ x ∈ xs, x.opcode.isBranch = false) : m.AllLand j k xs := by
  intro i x at_i branch
  rw [h x (List.mem_of_getElem? at_i)] at branch
  cases branch

theorem Image.allLand_singleton {x : Instr} (h : m.Lands j k x) : m.AllLand j k [x] := by
  intro i y at_i
  obtain ⟨rfl, rfl⟩ : i = 0 ∧ x = y := by
    cases i with
    | zero => exact ⟨rfl, Option.some.inj at_i⟩
    | succ i => cases at_i
  exact h

/-- A jump goes right behind another. -/
theorem Image.allLand_jump {d e : Int} {n : Nat} (holds : m.Holds j n [jumpBy e]) (eq : (n : Int) = k + d) :
    m.AllLand j k [jumpBy d] :=
  allLand_singleton fun _ => ⟨d, n, e, rfl, eq, (holds_cons.1 holds).1⟩

end Lands

/-! ### Statements -/

/-- Marks can be followed through code from where there are no addresses to where there are none again, and
all its branches go right behind jumps. -/
structure Image.Tracks (m : Image) (w : Nat → Bool) (code : List Instr) : Prop where
  scan : ∀ {M}, IsCalm M → ∃ N, IsCalm N ∧ m.scan w M code = some N
  lands : ∀ {j k}, m.Holds j k code → m.AllLand j k code

/-- The code leaves a value for the branch at its end, which skips one instruction. -/
def Image.Tests (m : Image) (w : Nat → Bool) (code : List Instr) : Prop :=
  ∃ front x, code = front ++ [x] ∧ (∀ y ∈ front, y.opcode.isBranch = false) ∧ x.opcode.isConditional ∧
    x.operand = some 1 ∧ ∀ M, m.scan w M front = some (.value :: M)

section Parts

variable {m : Image} {w : Nat → Bool} {code more test inside : List Instr}

theorem after?_of_isConditional {M : List Mark} {i : Instr} (h : i.opcode.isConditional) :
    i.after? m w (.value :: M) = some M := by
  cases op : i.opcode with
  | brtrue | brfalse => simp [Instr.after?, op]
  | _ =>
    rw [op] at h
    cases h

theorem Image.Tests.scan (h : m.Tests w test) (M : List Mark) : m.scan w M test = some M := by
  obtain ⟨front, x, rfl, -, branch, -, scan⟩ := h
  simp [scan, after?_of_isConditional branch]

/-- The jump behind a condition is skipped. -/
theorem Image.Tests.lands (h : m.Tests w test) {j k : Nat} {d : Int}
    (holds : m.Holds j k (test ++ [jumpBy d])) : m.AllLand j k test := by
  obtain ⟨front, x, rfl, straight, -, operand, -⟩ := h
  refine (allLand_of_forall straight).append (allLand_singleton fun _ => ?_)
  refine ⟨1, k + (front ++ [x]).length, d, operand, ?_, ?_⟩
  · rw [List.length_append]
    rfl
  · exact (holds_cons.1 (holds_append.1 holds).2).1

theorem Image.tracks_of_forall (straight : ∀ x ∈ code, x.opcode.isBranch = false)
    (scan : ∀ {M}, IsCalm M → ∃ N, IsCalm N ∧ m.scan w M code = some N) : m.Tracks w code :=
  ⟨scan, fun _ => allLand_of_forall straight⟩

theorem Image.tracks_nil : m.Tracks w [] :=
  tracks_of_forall (List.forall_mem_nil _) fun calm => ⟨_, calm, rfl⟩

theorem Image.Tracks.append (h : m.Tracks w code) (h' : m.Tracks w more) : m.Tracks w (code ++ more) where
  scan calm := by
    obtain ⟨N, calm', first⟩ := h.scan calm
    obtain ⟨N', calm'', second⟩ := h'.scan calm'
    exact ⟨N', calm'', by rw [scan_append, first, Option.bind_some, second]⟩
  lands holds := by
    obtain ⟨first, second⟩ := holds_append.1 holds
    exact (h.lands first).append (h'.lands second)

theorem Image.Tracks.loopCode (ht : m.Tests w test) (hi : m.Tracks w inside) :
    m.Tracks w (loopCode test inside) where
  scan := by
    intro M _
    obtain ⟨N, -, scan⟩ := hi.scan isCalm_nil
    exact ⟨[], isCalm_nil, by simp [CZero.loopCode, ht.scan, scan]⟩
  lands := by
    intro j k holds
    obtain ⟨condition, body⟩ := holds_loopCode holds
    obtain ⟨block, back⟩ := holds_append.1 body
    have first : m.Holds j k [jumpBy 0] := by
      simp only [CZero.loopCode, holds_append] at holds
      exact holds.1.1.1.1
    unfold CZero.loopCode
    refine ((((allLand_jump first ?_).append (ht.lands condition)).append (allLand_jump back ?_)).append
      ((hi.lands block).place ?_)).append (allLand_jump first ?_)
    all_goals simp -failIfUnchanged only [List.length_append, List.length_singleton]; omega

theorem Image.Tracks.ifCode {other : Option (List Instr)} (ht : m.Tests w test) (hi : m.Tracks w inside)
    (ho : ∀ code ∈ other, m.Tracks w code) : m.Tracks w (ifCode test inside other) where
  scan := by
    intro M _
    obtain ⟨N, -, scan⟩ := hi.scan isCalm_nil
    refine ⟨[], isCalm_nil, ?_⟩
    cases other with
    | none => simp [CZero.ifCode, ht.scan, scan]
    | some code =>
      obtain ⟨N', -, scan'⟩ := (ho code rfl).scan isCalm_nil
      simp [CZero.ifCode, ht.scan, scan, scan']
  lands := by
    intro j k holds
    cases other with
    | none =>
      obtain ⟨condition, body⟩ := holds_ifCode_none holds
      obtain ⟨block, join⟩ := holds_append.1 body
      unfold CZero.ifCode
      refine (((ht.lands condition).append (allLand_jump join ?_)).append ((hi.lands block).place ?_)).append
        (allLand_jump join ?_)
      all_goals simp -failIfUnchanged only [List.length_append, List.length_singleton]; omega
    | some code =>
      obtain ⟨condition, body, otherwise⟩ := holds_ifCode_some holds
      obtain ⟨block, skip⟩ := holds_append.1 body
      obtain ⟨block', join⟩ := holds_append.1 otherwise
      unfold CZero.ifCode
      refine (((((ht.lands condition).append (allLand_jump skip ?_)).append ((hi.lands block).place ?_)).append
        (allLand_jump join ?_)).append (((ho code rfl).lands block').place ?_)).append (allLand_jump join ?_)
      all_goals simp -failIfUnchanged only [List.length_append, List.length_singleton]; omega

end Parts

/-- A condition needs a branch of its own unless its code ends in one. -/
theorem Point.test_emit_concat (P : Point) (code : List Instr) (x : Instr) :
    (P.emit (code ++ [x])).test = if x.opcode.isConditional then [] else [.withOperand .brtrue 1] := by
  simp [emit, test]

/-- A comparison leaves a value for the branch at its end. -/
theorem CompareOp.exists_code (m : Image) (w : Nat → Bool) (op : CompareOp) :
    ∃ front x, op.code = front ++ [x] ∧ (∀ y ∈ front, y.opcode.isBranch = false) ∧ x.opcode.isConditional ∧
      x.operand = some 1 ∧ ∀ M, m.scan w (.value :: .value :: M) front = some (.value :: M) := by
  unfold CompareOp.code
  cases op with
  | eq | ne => exact ⟨[_], _, rfl, by decide, rfl, rfl, fun M => by simp [Instr.after?, Instr.plain]⟩
  | lt | gt | le | ge => exact ⟨[_, _], _, rfl, by decide, rfl, rfl, fun M => by simp [Instr.after?, Instr.plain]⟩

section Points

variable {p : Program} {m : Image} {w : Nat → Bool} {P : Point} (h : P.env.IsMarked p m w)
include h

theorem Expr.tests_genCond {e : Expr} (typed : (e.type? P.env).isSome) (condition : e.isCondition p) :
    m.Tests w (e.genCond P).1 := by
  fun_induction Expr.isCondition p e with
  | case1 e ih => exact ih typed condition
  | case2 op lhs rhs =>
    rw [Bool.and_eq_true] at condition
    obtain ⟨left, right⟩ := condition
    rw [Expr.type?] at typed
    split at typed
    case isFalse => cases typed
    case isTrue also =>
      obtain ⟨front, x, code, straight, branch, operand, scan⟩ := op.exists_code m w
      refine ⟨lhs.code P.env P.data.length ++ rhs.code P.env (P.data.length + lhs.texts.length) ++ front, x,
        ?_, ?_, branch, operand, fun M => ?_⟩
      · simp only [Expr.genCond, Expr.gen, Expr.code, code, ← List.append_assoc]
        rw [Point.test_emit_concat, if_pos branch, List.append_nil]
      · refine List.forall_mem_append.2 ⟨List.forall_mem_append.2 ⟨?_, ?_⟩, straight⟩
        · exact lhs.isBranch_code _ _ (by rw [of_decide_eq_true left]; rfl)
        · exact rhs.isBranch_code _ _ (by rw [of_decide_eq_true right]; rfl)
      · simp [Expr.scan_value h typed left, Expr.scan_value h also right, scan]
  | case3 e _ _ =>
    have straight := e.isBranch_code P.env P.data.length (by rw [of_decide_eq_true condition]; rfl)
    obtain ⟨front, x, code⟩ :=
      List.eq_nil_or_concat' (e.code P.env P.data.length) |>.resolve_left (e.code_ne_nil h typed condition _)
    refine ⟨e.code P.env P.data.length, .withOperand .brtrue 1, ?_, straight, rfl, rfl, fun M => ?_⟩
    · have last : x.opcode.isConditional = false := by
        have := straight x (by simp [code])
        cases op : x.opcode <;> rw [op] at this <;> first | rfl | cases this
      simp only [Expr.genCond, Expr.gen, code]
      rw [Point.test_emit_concat, if_neg (by rw [last]; exact Bool.false_ne_true)]
    · exact Expr.scan_value h typed condition _ M

/-- A value that is stored in a place of the function. -/
theorem Expr.tracks_genStore {i : Instr} {e : Expr} (address : i.opcode = .loca ∨ i.opcode = .arga)
    (typed : (e.type? P.env).isSome) (value : e.isValue p) : m.Tracks w (e.genStore P [i]).1 := by
  refine Image.tracks_of_forall ?_ fun {M} calm => ⟨M, calm, ?_⟩
  · refine List.forall_mem_append.2 ⟨List.forall_mem_cons.2 ⟨?_, ?_⟩, List.forall_mem_singleton.2 rfl⟩
    · rcases address with op | op <;> rw [op] <;> rfl
    · exact e.isBranch_code _ _ (by rw [of_decide_eq_true value]; rfl)
  · have push : i.after? m w M = some (.own :: M) := by
      rcases address with op | op <;> simp [Instr.after?, op]
    have code := Expr.scan_value h typed value P.data.length (.own :: M)
    change m.scan w M ([i] ++ e.code P.env P.data.length ++ [.plain .store64]) = some M
    simp [push, code, after?_store64, Mark.store, calm]

theorem Decl.tracks_gen {d : Decl} (fits : d.Fits P.env) (balanced : d.isBalanced p) :
    m.Tracks w (d.gen P).1 := by
  unfold Decl.gen
  unfold Decl.isBalanced at balanced
  cases init : d.init with
  | none => exact Image.tracks_nil
  | some e =>
    rw [init] at balanced
    obtain ⟨ty, typed, -⟩ := fits.2.2 e init
    exact Expr.tracks_genStore (P := P.reserve d.name.name) h (.inl rfl)
      (Option.isSome_iff_exists.2 ⟨ty, typed⟩) balanced

theorem tracks_genRet {value : Option Expr} (legal : LegalRet P.env value)
    (balanced : value.all (·.isValue p)) : m.Tracks w (genRet P value).1 := by
  have leave : m.Tracks w [.plain .ret] :=
    Image.tracks_of_forall (by decide) fun calm => ⟨_, calm, rfl⟩
  cases value with
  | none => exact leave
  | some e => exact (Expr.tracks_genStore h (.inr rfl) (by rw [legal.1]; rfl) balanced).append leave

theorem Expr.tracks_gen {e : Expr} (typed : ∃ ty, e.type? P.env = some ty) (balanced : (e.yield? p).isSome) :
    m.Tracks w (e.gen P).1 := by
  refine Image.tracks_of_forall (e.isBranch_code _ _ balanced) fun calm => ?_
  obtain ⟨n, yields⟩ := Option.isSome_iff_exists.1 balanced
  refine ⟨_, (isCalm_replicate n).append calm, ?_⟩
  exact e.scan_code h (Option.isSome_iff_exists.2 typed) yields fun _ => calm

end Points

section Statements

variable {p : Program} {m : Image} {w : Nat → Bool} {r : Roster} {params locals : Nat} {outer : Layer} {ret : Ty}

mutual

/-- Marks can be followed through the code of a balanced statement. -/
theorem Stmt.tracks_gen {P : Point} {σ : List String} {n : Nat} (covers : r.Covers outer)
    (known : r.IsMarked p m w) (h : P.IsAt params outer ret σ n) :
    (s : Stmt) → s.Legal P → s.isBalanced p → (s.scope σ).length ≤ params + locals →
      m.Tracks w (s.gen P).1
  | .decl d, legal, balanced, room => by
    rw [Stmt.scope, List.length_cons] at room
    have own : σ.length ≤ params + locals := by omega
    exact d.tracks_gen ((h.agrees covers own).isMarked known) legal.1 balanced
  | .cond c, legal, balanced, room => c.tracks_gen covers known h legal balanced room
  | .loop e body, legal, balanced, room => by
    rw [Stmt.isBalanced, Bool.and_eq_true] at balanced
    have grows := (body.suffix_scope σ).length_le
    have marked := (h.jump.agrees covers (Nat.le_trans grows room)).isMarked known
    have test := e.tests_genCond (P := P.jump) marked (Option.isSome_iff_exists.2 legal.1) balanced.1
    exact .loopCode test (body.tracks_gen covers known (h.jump.genCond e).jump legal.2 balanced.2 room)
  | .ret _ value, legal, balanced, room => tracks_genRet ((h.agrees covers room).isMarked known) legal balanced
  | .block b, legal, balanced, room => b.tracks_gen covers known h legal balanced room
  | .empty, _, _, _ => Image.tracks_nil
  | .expr e, legal, balanced, room => e.tracks_gen ((h.agrees covers room).isMarked known) legal balanced

theorem Block.tracks_gen {P : Point} {σ : List String} {n : Nat} (covers : r.Covers outer)
    (known : r.IsMarked p m w) (h : P.IsAt params outer ret σ n) :
    (b : Block) → b.Legal P → b.isBalanced p → (b.scope σ).length ≤ params + locals →
      m.Tracks w (b.gen P).1
  | .close, _, _, _ | .cutOff _, _, _, _ => Image.tracks_nil
  | .stmt s rest, legal, balanced, room => by
    rw [Block.isBalanced, Bool.and_eq_true] at balanced
    have grows := (rest.suffix_scope (s.scope σ)).length_le
    have first := s.tracks_gen covers known h legal.1 balanced.1 (Nat.le_trans grows room)
    exact first.append (rest.tracks_gen covers known (legal.1.isAt h) legal.2 balanced.2 room)

theorem IfChain.tracks_gen {P : Point} {σ : List String} {n : Nat} (covers : r.Covers outer)
    (known : r.IsMarked p m w) (h : P.IsAt params outer ret σ n) :
    (c : IfChain) → c.Legal P → c.isBalanced p → (c.scope σ).length ≤ params + locals →
      m.Tracks w (c.gen P).1
  | .mk e body otherwise, legal, balanced, room => by
    simp only [IfChain.isBalanced, Bool.and_eq_true] at balanced
    obtain ⟨⟨condition, inside⟩, other⟩ := balanced
    have inner := (h.genCond e).jump
    have grows := (otherwise.suffix_scope (body.scope σ)).length_le
    have inside_room : (body.scope σ).length ≤ params + locals := Nat.le_trans grows room
    have own := Nat.le_trans (body.suffix_scope σ).length_le inside_room
    have test := e.tests_genCond ((h.agrees covers own).isMarked known) (Option.isSome_iff_exists.2 legal.1) condition
    exact .ifCode test (body.tracks_gen covers known inner legal.2.1 inside inside_room)
      (otherwise.tracks_gen covers known (legal.2.1.isAt inner) legal.2.2 other room)

theorem Else.tracks_gen {P : Point} {σ : List String} {n : Nat} (covers : r.Covers outer)
    (known : r.IsMarked p m w) (h : P.IsAt params outer ret σ n) :
    (o : Else) → o.Legal P → o.isBalanced p → (o.scope σ).length ≤ params + locals →
      ∀ code ∈ (o.gen P).1, m.Tracks w code
  | .absent, _, _, _ => by
    intro code eq
    cases eq
  | .block b, legal, balanced, room => by
    intro code eq
    cases eq
    exact b.tracks_gen covers known h.jump legal balanced room
  | .chain c, legal, balanced, room => by
    intro code eq
    cases eq
    exact c.tracks_gen covers known h.jump legal balanced room

end

end Statements

end CZero
