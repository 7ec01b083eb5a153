import CZero.Proofs.Preservation.Scene

/-!
# Expressions

The code of an expression does what the expression means, and pushes its value if there is one. All that
is asked of the functions it calls is that the machine does the same with them (`Callees.Simulated`).

A condition ends in a branch that skips the instruction behind it if the condition holds.
-/

namespace CZero

open State

/-- The caller has the result of a call on its stack. -/
def Activation.Resumes (a : Activation) (L : Layer) (pc : Nat) (x : List Int64) (ret : Ty) (st : Store)
    (v : Option Int64) (st' : Store) (t : State) : Prop :=
  (v.isSome ↔ ret = .int) ∧ st'.locals = st.locals ∧
    ∃ g, L.Agrees st'.globals g ∧ t = a.state pc (x ++ v.toList) g st'.console

/-- A machine that comes to the call of a function, with the result slots and the arguments on top of the
stack, does what the function means, and has the result in their place then. -/
def Callees.Simulated (call : Callees) (m : Image) (L : Layer) (p : Program) (n : Nat) : Prop :=
  ∀ ⦃y i ty f args⦄, (y, .fn i ty) ∈ L → p.callee? y = some f → f.isInteger → args.length = f.arity →
    ∀ ⦃a : Activation⦄ ⦃pc x g st⦄, m.instr? a.function pc = some (callOf i) → L.Agrees st.globals g →
      Sim m L n (a.state pc (x ++ List.replicate f.ret.returnSlots 0 ++ args) g st.console)
        (a.Resumes L (pc + 1) x f.ret st) (Eval.ofOuter (call y args) st)

/-- The machine has a value on top of its stack if there is to be one. -/
def Scene.Gives (c : Scene) (L : Layer) (pc : Nat) (work : List Int64) (κ : Ty) (v : Option Int64)
    (st : Store) (t : State) : Prop :=
  (v.isSome ↔ κ = .int) ∧ c.Shows L pc (work ++ v.toList) st t

variable {m : Image} {L : Layer} {p : Program} {n : Nat} {call : Callees} {c : Scene} {ρ : Env}
  {σ : List String}

theorem Sim.value {x : Eval (Option Int64)} {s : State} {st : Store} {pc : Nat} {work : List Int64}
    (h : Sim m L n s (c.Gives L pc work .int) (x st)) :
    Sim m L n s (fun v => c.Shows L pc (work ++ [v])) (Eval.need x st) :=
  (h.need fun _ _ _ h => h.1.2 rfl).imp fun _ _ _ h => h.2

/-! ### Operators -/

section Operators

variable {a : Activation} {pc : Nat} {x : List Int64} {v w : Int64} {g : Array Int64} {o : Console}

open CZero.Action

theorem leads_negi {n : Nat} (holds : m.Holds a.function pc (List.replicate n (.plain .negi))) :
    Leads m n (a.state pc (x ++ [v]) g o) (a.state (pc + n) (x ++ [Neg.neg^[n] v]) g o) := by
  induction n generalizing pc v with
  | zero => exact .refl _ _
  | succ n ih =>
    rw [List.replicate_succ, Image.holds_cons] at holds
    have first := leads_unary (x := x) (v := v) (g := g) (o := o) holds.1 rfl
    have rest := first.trans (ih holds.2)
    rwa [Nat.add_right_comm, Nat.add_comm 1] at rest

theorem ArithOp.leads {op : ArithOp} {u : Int64}
    (hi : m.instr? a.function pc = some op.instr) (h : op.apply v w = .ok u) :
    Leads m 1 (a.state pc (x ++ [v] ++ [w]) g o) (a.state (pc + 1) (x ++ [u]) g o) := by
  cases op with
  | add =>
    obtain ⟨⟩ := h
    exact leads_binary hi rfl
  | sub =>
    obtain ⟨⟩ := h
    exact leads_binary hi rfl
  | mul =>
    obtain ⟨⟩ := h
    exact leads_binary hi rfl
  | div =>
    unfold apply at h
    by_cases zero : w = 0
    · simp [zero] at h
    · simp only [zero, if_false] at h
      obtain ⟨⟩ := h
      refine leads_of_perform hi fun _ => ?_
      change (pop >>= fun rhs => pop >>= fun lhs => if rhs = 0 then throw .divisionByZero >>= fun _ =>
        push (lhs / rhs) else push (lhs / rhs)) _ = _
      rw [bind_of_ok (pop_eq rfl), bind_of_ok (pop_eq rfl), if_neg zero, push_eq rfl]
      rfl

theorem ArithOp.faults {op : ArithOp} {e : Fault}
    (hi : m.instr? a.function pc = some op.instr) (h : op.apply v w = .error e) :
    (a.state pc (x ++ [v] ++ [w]) g o).Faults m e (a.state (pc + 1) x g o) := by
  cases op with
  | div =>
    unfold apply at h
    by_cases zero : w = 0
    · subst zero
      obtain ⟨⟩ := h
      exact ⟨_, _, _, rfl, hi, by
        change (pop >>= fun rhs => pop >>= fun lhs => if rhs = 0 then throw .divisionByZero >>= fun _ =>
          push (lhs / rhs) else push (lhs / rhs)) (a.state (pc + 1) (x ++ [v] ++ [0]) g o) = _
        rw [bind_of_ok (pop_eq rfl), bind_of_ok (pop_eq rfl), if_pos rfl]
        rfl⟩
    · simp [zero] at h
  | _ => cases h

theorem compare_eq_zero : Action.compare v w = 0 ↔ v = w := by
  unfold Action.compare
  split
  case isTrue lt => exact ⟨fun h => absurd h (by decide), fun h => absurd (h ▸ lt) (Int64.lt_irrefl)⟩
  case isFalse => split <;> simp_all

theorem compare_lt_zero : Action.compare v w < 0 ↔ v < w := by
  unfold Action.compare
  split
  case isTrue lt => exact ⟨fun _ => lt, fun _ => by decide⟩
  case isFalse le =>
    refine ⟨fun h => absurd h ?_, fun h => absurd h le⟩
    split <;> decide

theorem zero_lt_compare : 0 < Action.compare v w ↔ w < v := by
  unfold Action.compare
  split
  case isTrue lt =>
    exact ⟨fun h => absurd h (by decide), fun h => absurd (Int64.lt_trans lt h) Int64.lt_irrefl⟩
  case isFalse le =>
    split
    case isTrue eq => exact ⟨fun h => absurd h (by decide), fun h => absurd (eq ▸ h) Int64.lt_irrefl⟩
    case isFalse ne =>
      refine ⟨fun _ => ?_, fun _ => by decide⟩
      rw [Int64.lt_iff_toInt_lt] at le ⊢
      rw [← Int64.toInt_inj] at ne
      omega

/-- A comparison without a test of its own: whether the operands are the same. -/
theorem leads_order {branch : Opcode}
    (holds : m.Holds a.function pc [.plain .cmpi, .withOperand branch 1]) (cond : branch.isConditional)
    (le : pc + 3 ≤ m.length a.function) (small : pc + 3 < 2 ^ 63) :
    Leads m 2 (a.state pc (x ++ [v] ++ [w]) g o)
      (a.state (if (branch = .brtrue ↔ v ≠ w) then pc + 3 else pc + 2) x g o) := by
  simp only [Image.holds_cons] at holds
  have leads := (leads_binary (f := Action.compare) (x := x) (v := v) (w := w) (g := g) (o := o)
    holds.1 rfl).trans (leads_branch holds.2.1 cond le small)
  simp only [ne_eq, compare_eq_zero] at leads
  exact leads

/-- A comparison that tests the order of its operands. -/
theorem leads_test {test branch : Opcode} {f : Int64 → Bool}
    (holds : m.Holds a.function pc [.plain .cmpi, .plain test, .withOperand branch 1])
    (ht : perform m (.plain test) = unary fun v => ofBool (f v)) (cond : branch.isConditional)
    (le : pc + 4 ≤ m.length a.function) (small : pc + 4 < 2 ^ 63) :
    Leads m 3 (a.state pc (x ++ [v] ++ [w]) g o)
      (a.state (if (branch = .brtrue ↔ f (Action.compare v w)) then pc + 4 else pc + 3) x g o) := by
  simp only [Image.holds_cons] at holds
  have leads := ((leads_binary (f := Action.compare) (x := x) (v := v) (w := w) (g := g) (o := o)
    holds.1 rfl).trans (leads_unary holds.2.1 ht)).trans (leads_branch holds.2.2.1 cond le small)
  have bool : ∀ b, ofBool b ≠ 0 ↔ b = true := by decide
  simp only [bool] at leads
  exact leads

/-- A comparison skips the instruction behind it if it holds. -/
theorem CompareOp.leads {op : CompareOp} (holds : m.Holds a.function pc op.code)
    (le : pc + op.code.length + 1 ≤ m.length a.function)
    (small : pc + op.code.length + 1 < 2 ^ 63) :
    ∃ k, Leads m k (a.state pc (x ++ [v] ++ [w]) g o)
      (a.state (pc + op.code.length + if op.holds v w then 1 else 0) x g o) := by
  cases op with
  | eq =>
    have leads := leads_order (x := x) (v := v) (w := w) (g := g) (o := o) holds rfl le small
    refine ⟨2, ?_⟩
    by_cases h : v = w <;> simpa [CompareOp.holds, h, code, test] using leads
  | ne =>
    have leads := leads_order (x := x) (v := v) (w := w) (g := g) (o := o) holds rfl le small
    refine ⟨2, ?_⟩
    by_cases h : v = w <;> simpa [CompareOp.holds, h, code, test] using leads
  | lt =>
    have leads := leads_test (x := x) (v := v) (w := w) (g := g) (o := o) holds rfl rfl le small
    refine ⟨3, ?_⟩
    by_cases h : v < w <;> simpa [CompareOp.holds, h, code, test, compare_lt_zero] using leads
  | gt =>
    have leads := leads_test (x := x) (v := v) (w := w) (g := g) (o := o) holds rfl rfl le small
    refine ⟨3, ?_⟩
    by_cases h : w < v <;> simpa [CompareOp.holds, h, code, test, zero_lt_compare] using leads
  | le =>
    have leads := leads_test (x := x) (v := v) (w := w) (g := g) (o := o) holds rfl rfl le small
    refine ⟨3, ?_⟩
    have flip : v ≤ w ↔ ¬w < v := Int64.not_lt.symm
    by_cases h : w < v <;> simpa [CompareOp.holds, flip, h, code, test, zero_lt_compare] using leads
  | ge =>
    have leads := leads_test (x := x) (v := v) (w := w) (g := g) (o := o) holds rfl rfl le small
    refine ⟨3, ?_⟩
    have flip : w ≤ v ↔ ¬v < w := Int64.not_lt.symm
    by_cases h : v < w <;> simpa [CompareOp.holds, flip, h, code, test, compare_lt_zero] using leads

end Operators

/-! ### Parts of an expression -/

theorem Expr.typed_load {x : Ident} (h : ((Expr.load x).type? ρ).isSome) :
    ∃ slot ty isConst, ρ.find? x.name = some (.var slot ty isConst) := by
  simp only [type?] at h
  rcases found : ρ.find? x.name with _ | ⟨slot, ty, isConst⟩ | _ <;> simp [found] at h
  exact ⟨slot, ty, isConst, rfl⟩

theorem Expr.typed_assign {x : Ident} {e : Expr} (h : ((Expr.assign x e).type? ρ).isSome) :
    (∃ slot ty isConst, ρ.find? x.name = some (.var slot ty isConst)) ∧ (e.type? ρ).isSome := by
  simp only [type?] at h
  rcases found : ρ.find? x.name with _ | ⟨slot, ty, isConst⟩ | _ <;> simp [found] at h
  refine ⟨⟨slot, ty, isConst, rfl⟩, ?_⟩
  cases inner : e.type? ρ with
  | none => simp [inner] at h
  | some => rfl

theorem Expr.typed_call {x : Ident} {as : Args} (h : ((Expr.call x as).type? ρ).isSome) :
    (∃ i ret, ρ.find? x.name = some (.fn i ret)) ∧ as.typed ρ := by
  simp only [type?] at h
  rcases found : ρ.find? x.name with _ | _ | ⟨i, ret⟩ <;> simp [found] at h
  exact ⟨⟨i, ret, rfl⟩, h⟩

/-- Both operands of an operator keep the static rules. -/
theorem Expr.typed_operands {lhs rhs : Expr}
    (h : (if (rhs.type? ρ).isSome then lhs.type? ρ else none).isSome) :
    (lhs.type? ρ).isSome ∧ (rhs.type? ρ).isSome := by
  by_cases typed : (rhs.type? ρ).isSome
  · rw [if_pos typed] at h
    exact ⟨h, typed⟩
  · simp [typed] at h

theorem Expr.typed_cast {e : Expr} {type : Ident} (h : ((Expr.cast e type).type? ρ).isSome) :
    (e.type? ρ).isSome := by
  simp only [type?] at h
  by_cases known : (Ty.ofName? type.name).isSome
  · rwa [if_pos known] at h
  · simp [known] at h

theorem Expr.kind_call {x : Ident} {as : Args} {κ : Ty} (h : (Expr.call x as).kind? p = some κ) :
    ∃ f, p.callee? x.name = some f ∧ f.isInteger ∧ as.count = f.arity ∧ as.areIntegers p ∧ κ = f.ret := by
  simp only [kind?] at h
  cases found : p.callee? x.name with
  | none => simp [found] at h
  | some f =>
    simp only [found, Option.ite_none_right_eq_some, Option.some_inj] at h
    obtain ⟨⟨integer, count, values⟩, eq⟩ := h
    exact ⟨f, rfl, integer, count, values, eq.symm⟩

/-! ### Evaluation -/

mutual

/-- The code of an expression does what the expression means. -/
theorem Expr.sim_eval (names : L.IsOf p) (calls : call.Simulated m L p n) (sees : c.Sees L ρ σ) :
    (e : Expr) → ∀ {κ : Ty} {k pc : Nat} {work : List Int64} {st : Store} {s : State},
      (e.type? ρ).isSome → e.kind? p = some κ → m.Holds c.act.function pc (e.code ρ k) →
      c.Shows L pc work st s →
      Sim m L n s (c.Gives L (pc + (e.code ρ k).length) work κ) (e.eval call σ k st)
  | .hole _, _, _, _, _, _, _, _, kind, _, _ | .cutOff _ _, _, _, _, _, _, _, _, kind, _, _
  | .double _, _, _, _, _, _, _, _, kind, _, _ | .compare _ _ _, _, _, _, _, _, _, _, kind, _, _ => by
    cases kind
  | .uint value, _, _, _, _, _, _, _, kind, holds, shows
  | .string _, _, _, _, _, _, _, _, kind, holds, shows
  | .char _, _, _, _, _, _, _, _, kind, holds, shows => by
    cases kind
    obtain ⟨t, leads, shows⟩ := shows.push fun g => leads_push (Image.holds_cons.1 holds).1
    exact .ok leads ⟨by simp, shows⟩
  | .load x, _, _, _, _, _, _, typed, kind, holds, shows => by
    cases kind
    obtain ⟨slot, ty, isConst, found⟩ := Expr.typed_load typed
    rw [Expr.code, Image.holds_append, Image.holds_cons] at holds
    obtain ⟨first, last, -⟩ := holds
    obtain ⟨length, v, t, leads, locates, shows⟩ := sees.pushAddress names found first shows
    rw [length] at last
    rw [Expr.code, List.length_append, length, Expr.eval]
    refine .step leads ((locates.load names last shows).bind fun v st t shows => ?_)
    exact .pure ⟨by simp, shows⟩
  | .assign x e, _, _, _, _, _, _, typed, kind, holds, shows => by
    obtain ⟨⟨slot, ty, isConst, found⟩, typed⟩ := Expr.typed_assign typed
    simp only [Expr.kind?, Option.ite_none_right_eq_some, Option.some_inj] at kind
    obtain ⟨kind, rfl⟩ := kind
    rw [Expr.code, Image.holds_append, Image.holds_append, Image.holds_cons] at holds
    obtain ⟨⟨first, inner⟩, last, -⟩ := holds
    obtain ⟨length, v, t, leads, locates, shows⟩ := sees.pushAddress names found first shows
    rw [length] at inner
    rw [List.length_append, length, ← Nat.add_assoc] at last
    rw [Expr.code, List.length_append, List.length_append, length, List.length_singleton,
      ← Nat.add_assoc, ← Nat.add_assoc, Expr.eval]
    refine .step leads ((e.sim_eval names calls sees typed kind inner shows).value.bind ?_)
    intro u st t shows
    refine (locates.store names last shows).bind fun _ st t shows => ?_
    exact .pure ⟨by simp, by simpa using shows⟩
  | .call x as, _, _, _, _, _, _, typed, kind, holds, shows => by
    obtain ⟨⟨i, ret, found⟩, typed⟩ := Expr.typed_call typed
    obtain ⟨f, callee, integer, count, values, rfl⟩ := Expr.kind_call kind
    have mem : (x.name, .fn i ret) ∈ L := sees.mem_of_fn found
    obtain rfl := names.ret _ _ _ _ mem callee
    simp only [Expr.code, found] at holds ⊢
    rw [List.cons_append, Image.holds_cons, Image.holds_append, Image.holds_cons] at holds
    obtain ⟨first, inner, last, -⟩ := holds
    obtain ⟨t, leads, shows⟩ := shows.alloc (by have := f.ret.returnSlots_le; omega) first
    rw [Expr.eval]
    refine .step leads ((as.sim_eval names calls sees typed values inner shows).bind ?_)
    rintro vs st t ⟨length, g, agrees, rfl⟩
    rw [← List.append_assoc, ← List.append_assoc]
    refine (calls mem callee integer (length.trans count) last agrees).imp ?_
    rintro v st' t ⟨isSome, locals, g, agrees, rfl⟩
    refine ⟨isSome, g, agrees, ?_⟩
    rw [Scene.frame, Scene.frame, locals, ← List.append_assoc]
    simp only [List.length_append, List.length_cons, List.length_nil, ← Nat.add_assoc,
      Nat.add_right_comm _ 1]
  | .paren e, _, _, _, _, _, _, typed, kind, holds, shows =>
    e.sim_eval names calls sees typed kind holds shows
  | .cast e _, _, _, _, _, _, _, typed, kind, holds, shows =>
    e.sim_eval names calls sees (Expr.typed_cast typed) kind holds shows
  | .neg signs e, _, _, _, _, _, _, typed, kind, holds, shows => by
    simp only [Expr.kind?, Option.ite_none_right_eq_some, Option.some_inj] at kind
    obtain ⟨⟨few, kind⟩, rfl⟩ := kind
    rw [Expr.code, effectiveSigns_of_lt few, Image.holds_append] at holds
    obtain ⟨inner, last⟩ := holds
    rw [Expr.code, effectiveSigns_of_lt few, List.length_append, List.length_replicate, ← Nat.add_assoc,
      Expr.eval]
    refine (e.sim_eval names calls sees typed kind inner shows).value.bind ?_
    rintro v st t ⟨g, agrees, rfl⟩
    rw [← List.append_assoc]
    exact .step (leads_negi last) (.pure ⟨by simp, g, agrees, by rw [← List.append_assoc]; rfl⟩)
  | .arith op lhs rhs, _, _, _, _, _, _, typed, kind, holds, shows => by
    obtain ⟨typedL, typedR⟩ := Expr.typed_operands typed
    simp only [Expr.kind?, Option.ite_none_right_eq_some, Option.some_inj] at kind
    obtain ⟨⟨kindL, kindR⟩, rfl⟩ := kind
    rw [Expr.code, Image.holds_append, Image.holds_append, Image.holds_cons] at holds
    obtain ⟨⟨holdsL, holdsR⟩, last, -⟩ := holds
    rw [List.length_append, ← Nat.add_assoc] at last
    rw [Expr.code, List.length_append, List.length_append, List.length_singleton, ← Nat.add_assoc,
      ← Nat.add_assoc, Expr.eval]
    refine (lhs.sim_eval names calls sees typedL kindL holdsL shows).value.bind ?_
    intro v st t shows
    refine (rhs.sim_eval names calls sees typedR kindR holdsR shows).value.bind ?_
    rintro w st t ⟨g, agrees, rfl⟩
    rw [← List.append_assoc, ← List.append_assoc]
    cases h : op.apply v w with
    | ok u => exact .step (op.leads last h) (.pure ⟨by simp, g, agrees, by rw [← List.append_assoc]; rfl⟩)
    | error e => exact .fault (op.faults last h) rfl agrees

theorem Args.sim_eval (names : L.IsOf p) (calls : call.Simulated m L p n) (sees : c.Sees L ρ σ) :
    (as : Args) → ∀ {k pc : Nat} {work : List Int64} {st : Store} {s : State},
      as.typed ρ → as.areIntegers p → m.Holds c.act.function pc (as.code ρ k) → c.Shows L pc work st s →
      Sim m L n s (fun vs st t => vs.length = as.count ∧
        c.Shows L (pc + (as.code ρ k).length) (work ++ vs) st t) (as.eval call σ k st)
  | .close, _, _, _, _, _, _, _, _, shows => .pure ⟨rfl, by simpa [Args.code] using shows⟩
  | .cutOff _, _, _, _, _, _, typed, _, _, _ => by cases typed
  | .arg e rest, _, _, _, _, _, typed, values, holds, shows => by
    simp only [Args.typed, Bool.and_eq_true] at typed
    simp only [Args.areIntegers, Bool.and_eq_true, decide_eq_true_eq] at values
    rw [Args.code, Image.holds_append] at holds
    rw [Args.code, List.length_append, ← Nat.add_assoc, Args.eval]
    refine (e.sim_eval names calls sees typed.1 values.1 holds.1 shows).value.bind ?_
    intro v st t shows
    refine (rest.sim_eval names calls sees typed.2 values.2 holds.2 shows).bind ?_
    rintro vs st t ⟨length, shows⟩
    exact .pure ⟨by rw [Args.count, List.length_cons, length], by simpa using shows⟩

end

/-! ### Conditions -/

theorem callOf_isConditional (i : Nat) : (callOf i).opcode.isConditional = false := by
  unfold callOf
  split <;> rfl

/-- The code of an expression that is no comparison does not end in a branch. -/
theorem Expr.getLast?_code {κ : Ty} {k : Nat} : (e : Expr) → (e.type? ρ).isSome → e.kind? p = some κ →
    ∃ i, (e.code ρ k).getLast? = some i ∧ i.opcode.isConditional = false
  | .hole _, _, kind | .cutOff _ _, _, kind | .double _, _, kind | .compare _ _ _, _, kind => by cases kind
  | .uint _, _, _ | .string _, _, _ | .char _, _, _ => ⟨_, rfl, rfl⟩
  | .load _, _, _ | .assign _ _, _, _ => ⟨_, List.getLast?_concat, rfl⟩
  | .call x as, typed, _ => by
    obtain ⟨⟨i, ret, found⟩, -⟩ := typed_call typed
    refine ⟨callOf i, ?_, callOf_isConditional i⟩
    simp only [code, found]
    exact List.getLast?_concat
  | .paren e, typed, kind => e.getLast?_code typed kind
  | .neg signs e, typed, kind => by
    simp only [Expr.kind?, Option.ite_none_right_eq_some, Option.some_inj] at kind
    obtain ⟨i, last, cond⟩ := e.getLast?_code (k := k) typed kind.1.2
    rw [code]
    cases effectiveSigns signs with
    | zero => exact ⟨i, by rwa [List.replicate_zero, List.append_nil], cond⟩
    | succ n => exact ⟨.plain .negi, by rw [List.replicate_succ', ← List.append_assoc, List.getLast?_concat], rfl⟩
  | .cast e _, typed, kind => e.getLast?_code (typed_cast typed) kind
  | .arith op _ _, _, _ => ⟨_, List.getLast?_concat, by cases op <;> rfl⟩

section Conditions

variable {P : Point} {pc : Nat} {work : List Int64} {st : Store} {s : State}

/-- A value is tested by a branch of its own. -/
theorem Expr.genCond_of_kind {e : Expr} {κ : Ty} (typed : (e.type? P.env).isSome)
    (kind : e.kind? p = some κ) :
    (e.genCond P).1 = e.code P.env P.data.length ++ [.withOperand .brtrue 1] := by
  obtain ⟨i, last, cond⟩ := e.getLast?_code (k := P.data.length) typed kind
  simp [genCond, gen, Point.test, Point.emit, Point.literals, last, cond]

/-- A comparison has its branch. -/
theorem Expr.genCond_compare (op : CompareOp) (lhs rhs : Expr) :
    ((Expr.compare op lhs rhs).genCond P).1 = (Expr.compare op lhs rhs).code P.env P.data.length := by
  have last : ((Expr.compare op lhs rhs).gen P).2.last.any Opcode.isConditional := by
    cases op <;> simp [gen, code, Point.emit, Point.literals, CompareOp.code, Opcode.isConditional,
      Instr.withOperand]
  change _ ++ ((Expr.compare op lhs rhs).gen P).2.test = _
  rw [Point.test, if_pos last, List.append_nil]

theorem Expr.sim_nonzero (names : L.IsOf p) (calls : call.Simulated m L p n) (sees : c.Sees L P.env σ)
    {e : Expr} (typed : (e.type? P.env).isSome) (kind : e.kind? p = some .int)
    (holds : m.Holds c.act.function pc (e.genCond P).1)
    (le : pc + (e.genCond P).1.length + 1 ≤ m.length c.act.function)
    (small : m.length c.act.function < 2 ^ 63) (shows : c.Shows L pc work st s) :
    Sim m L n s (fun b st t => c.Shows L (pc + (e.genCond P).1.length + if b then 1 else 0) work st t)
      ((do return (← Eval.need (e.eval call σ P.data.length)) ≠ 0 : Eval Bool) st) := by
  rw [genCond_of_kind typed kind, List.length_append, List.length_singleton, ← Nat.add_assoc] at le ⊢
  rw [genCond_of_kind typed kind, Image.holds_append, Image.holds_cons] at holds
  refine (e.sim_eval names calls sees typed kind holds.1 shows).value.bind ?_
  rintro v st t ⟨g, agrees, rfl⟩
  rw [← List.append_assoc]
  refine .step (leads_branch holds.2.1 rfl le (by omega)) (.pure ⟨g, agrees, ?_⟩)
  by_cases zero : v = 0 <;> simp [zero]

/-- The code of a condition skips the instruction behind it if the condition holds. -/
theorem Expr.sim_holds (names : L.IsOf p) (calls : call.Simulated m L p n) (sees : c.Sees L P.env σ)
    (small : m.length c.act.function < 2 ^ 63) (shows : c.Shows L pc work st s) :
    (e : Expr) → (e.type? P.env).isSome → e.isTest p → m.Holds c.act.function pc (e.genCond P).1 →
      pc + (e.genCond P).1.length + 1 ≤ m.length c.act.function →
      Sim m L n s (fun b st t => c.Shows L (pc + (e.genCond P).1.length + if b then 1 else 0) work st t)
        (e.holds call σ P.data.length st)
  | .paren e, typed, test, holds, le => e.sim_holds names calls sees small shows typed test holds le
  | .compare op lhs rhs, typed, test, holds, le => by
    obtain ⟨typedL, typedR⟩ := typed_operands typed
    simp only [isTest, isInteger, Bool.and_eq_true, decide_eq_true_eq] at test
    rw [genCond_compare, code, Image.holds_append, Image.holds_append] at holds
    obtain ⟨⟨holdsL, holdsR⟩, last⟩ := holds
    rw [List.length_append, ← Nat.add_assoc] at last
    rw [genCond_compare, code, List.length_append, List.length_append, ← Nat.add_assoc,
      ← Nat.add_assoc] at le ⊢
    rw [Expr.holds]
    refine (lhs.sim_eval names calls sees typedL test.1 holdsL shows).value.bind ?_
    intro v st t shows
    refine (rhs.sim_eval names calls sees typedR test.2 holdsR shows).value.bind ?_
    rintro w st t ⟨g, agrees, rfl⟩
    rw [← List.append_assoc, ← List.append_assoc]
    obtain ⟨k, leads⟩ := op.leads last le (by omega)
    exact .step leads (.pure ⟨g, agrees, rfl⟩)
  | .hole _, typed, test, holds, le | .cutOff _ _, typed, test, holds, le
  | .uint _, typed, test, holds, le | .double _, typed, test, holds, le
  | .string _, typed, test, holds, le | .char _, typed, test, holds, le
  | .load _, typed, test, holds, le | .assign _ _, typed, test, holds, le
  | .call _ _, typed, test, holds, le | .neg _ _, typed, test, holds, le
  | .cast _ _, typed, test, holds, le | .arith _ _ _, typed, test, holds, le =>
    sim_nonzero names calls sees typed (of_decide_eq_true test) holds le small shows

end Conditions

end CZero
