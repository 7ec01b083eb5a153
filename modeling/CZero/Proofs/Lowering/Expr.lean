import CZero.Proofs.Lowering.Context

/-!
# What lowering an expression does

Lowering an expression succeeds exactly if the expression has a type by the static rules. It then
returns this type and has appended the code of the expression.
-/

namespace CZero

/-! ### The tables of opcodes -/

/-- The table gives an arithmetic operator its instruction. -/
theorem ArithOp.plain_opcode (op : ArithOp) : .plain op.opcode = op.instr := by
  cases op <;> rfl

/-- The table gives a comparison the test and the branch of its code. -/
theorem CompareOp.code_eq (op : CompareOp) :
    op.code = .plain .cmpi :: (op.test.1.toList.map .plain ++ [.withOperand op.test.2 1]) := by
  cases op <;> rfl

namespace Lower

variable {w : Surroundings} {c : Context} {f : FnInfo} {p : Point}

/-! ### Names -/

theorem meets_resolve (h : c.At w f p) (name : Ident) :
    (resolve name).Meets c (∃ b, p.env.find? name.name = some b) fun r c' =>
      c = c' ∧ r.2.binding? = p.env.find? name.name := by
  have found := h.table.lookup name.name
  refine meets_update ?_
  simp only at found
  cases eq : p.env.find? name.name with
  | none =>
    rw [eq] at found
    simp [found, bind, Except.bind]
  | some b =>
    rw [eq] at found
    obtain ⟨id, s, lookup, get, binding⟩ := found
    simp only [lookup, get, bind, Except.bind, pure, Except.pure]
    exact ⟨⟨b, rfl⟩, trivial, binding⟩

theorem meets_address (h : c.At w f p) (name : Ident) {slot : Slot} (variable_ : ∀ i, slot ≠ .fn i) :
    (address name slot).Meets c True fun _ c' =>
      c'.Wrote w f (slot.code p.env.ret.returnSlots) (p.emit (slot.code p.env.ret.returnSlots)) := by
  cases slot with
  | arg i =>
    refine (meets_function h).always ?_
    rintro _ _ ⟨rfl, rfl⟩
    rw [FnInfo.returnSlots, h.ret]
    exact meets_emitWith h .arga _
  | loc i => exact meets_emitWith h .loca _
  | glob i => exact meets_emitWith h .globa _
  | fn i => exact absurd rfl (variable_ i)

theorem meets_callee (h : c.At w f p) (name : Ident) :
    (callee name).Meets c (∃ index ret, p.env.find? name.name = some (.fn index ret)) fun info c' =>
      c = c' ∧ p.env.find? name.name = some (.fn info.index info.ret) := by
  refine (meets_resolve h name).bind (fun ⟨_, _, eq⟩ => ⟨_, eq⟩) ?_
  rintro ⟨id, s⟩ _ ⟨b, eq⟩ ⟨rfl, binding⟩
  rw [eq] at binding ⊢
  dsimp only at binding ⊢
  cases b with
  | var slot ty isConst =>
    obtain ⟨value, -⟩ := Symbol.value_of_binding? binding
    simp only [Symbol.function?, value]
    exact meets_throw (by simp)
  | fn index ret =>
    obtain ⟨info, i, function, -, rfl, rfl⟩ := Symbol.function_of_binding? binding
    simp only [Symbol.function?, function]
    exact meets_pure ⟨_, _, rfl⟩ ⟨rfl, rfl⟩

theorem meets_target (h : c.At w f p) (name : Ident) :
    (target name).Meets c (∃ slot, p.env.find? name.name = some (.var slot .int false)) fun r c' =>
      c = c' ∧ p.env.find? name.name = some (.var r.2 .int false) ∧ ∀ i, r.2 ≠ .fn i := by
  refine (meets_resolve h name).bind (fun ⟨_, eq⟩ => ⟨_, eq⟩) ?_
  rintro ⟨id, s⟩ _ ⟨b, eq⟩ ⟨rfl, binding⟩
  rw [eq] at binding ⊢
  dsimp only at binding ⊢
  cases b with
  | var slot ty isConst =>
    obtain ⟨value, rfl, rfl, rfl, notFn⟩ := Symbol.value_of_binding? binding
    simp only [Symbol.isIntVariable, value]
    by_cases int : s.ty = .int
    · by_cases const : s.isConst
      · simp only [int, const, BEq.rfl, Bool.and_self, Bool.not_true, Bool.false_eq_true, if_false,
          if_true]
        exact meets_throw (by simp)
      · simp only [int, const, BEq.rfl, Bool.and_self, Bool.not_true, Bool.false_eq_true, if_false]
        exact meets_pure ⟨_, rfl⟩ ⟨rfl, rfl, notFn⟩
    · simp only [beq_eq_false_iff_ne.2 int, Bool.and_false, Bool.not_false, if_true]
      exact meets_throw (by simp [int])
  | fn index ret =>
    obtain ⟨info, i, function, -⟩ := Symbol.function_of_binding? binding
    simp only [Symbol.isIntVariable, function, beq_eq_false_iff_ne.2, ne_eq, reduceCtorEq,
      not_false_eq_true, Bool.false_and, Bool.not_false, if_true]
    exact meets_throw (by simp)

theorem meets_storable (name : Ident) (ty : Ty) :
    (storable name ty).Meets c (ty ≠ .void) fun _ c' => c = c' := by
  unfold storable
  split
  · exact meets_throw (by simpa)
  · exact meets_pure ‹_› rfl

theorem meets_callInstr (h : c.At w f p) (index : Nat) :
    (callInstr index).Meets c True fun _ c' => c'.Wrote w f [callOf index] (p.emit [callOf index]) := by
  unfold callInstr callOf
  split
  · exact meets_emitWith h .callname _
  · exact meets_emitWith h .call _

theorem meets_literal (h : c.At w f p) (text : String) :
    (update .nowhere fun t => .ok (t.declareLiteral text)).Meets c True fun slot c' =>
      slot = p.data.length ∧ c'.At w f (p.literals [text]) := by
  obtain ⟨t, run, shows⟩ := h.table.declareLiteral text
  refine meets_update ?_
  rw [run]
  exact ⟨trivial, rfl, shows, h.current, h.main, h.ret, h.locals, h.last⟩

theorem meets_markInit {f : FnInfo} {p : Point} (h : c.At w f p) (id : Nat) :
    (update .nowhere fun t => .ok ((), t.markInit id)).Meets c True fun _ c' => c'.At w f p :=
  meets_update ⟨trivial, h.table.markInit id, h.current, h.main, h.ret, h.locals, h.last⟩

theorem meets_resultType (type : Ident) :
    (resultType type).Meets c (Ty.ofName? type.name).isSome fun ty c' =>
      c = c' ∧ Ty.ofName? type.name = some ty := by
  unfold resultType
  cases eq : Ty.ofName? type.name with
  | none => exact meets_throw (by simp)
  | some ty => exact meets_pure rfl ⟨rfl, rfl⟩

theorem meets_arith (h : c.At w f p) (op : ArithOp) :
    (emit op.opcode).Meets c True fun _ c' => c'.Wrote w f [op.instr] (p.emit [op.instr]) := by
  rw [← op.plain_opcode]
  exact meets_emit h op.opcode

/-- What follows the operands of a comparison. -/
theorem meets_compare (h : c.At w f p) (op : CompareOp) (ty : Ty) :
    (do
      emit .cmpi
      let (test, branch) := op.test
      if let some test := test then emit test
      emitWith branch 1
      return ty).Meets c True fun ty' c' => ty' = ty ∧ c'.Wrote w f op.code (p.emit op.code) := by
  refine (meets_emit h .cmpi).always fun _ c₁ h₁ => ?_
  rw [op.code_eq]
  generalize op.test = test
  obtain ⟨_ | test, branch⟩ := test
  · refine (meets_emitWith h₁ branch 1).always fun _ c₂ h₂ => meets_pure trivial ⟨rfl, ?_⟩
    simpa using h₂.trans
  · refine (meets_emit h₁ test).always fun _ c₂ h₂ => ?_
    refine (meets_emitWith h₂ branch 1).always fun _ c₃ h₃ => meets_pure trivial ⟨rfl, ?_⟩
    simpa using h₃.trans.trans

/-- The signs that are left when they are counted in 32 bits. -/
theorem negations_eq (signs : Nat) : negations signs = effectiveSigns signs := by
  rw [negations, effectiveSigns, Int32.toNatClampNeg, Int32.toInt_ofNat', Int.bmod, Int32.size]
  split <;> split <;> omega

theorem meets_negate (n : Nat) {c : Context} {f : FnInfo} {p : Point} (h : c.At w f p) :
    (negate n).Meets c True fun _ c' =>
      c'.Wrote w f (List.replicate n (.plain .negi)) (p.emit (List.replicate n (.plain .negi))) := by
  induction n generalizing c f p with
  | zero => exact meets_pure trivial (by simpa using h.wrote)
  | succ n ih =>
    rw [negate, List.replicate_succ]
    refine (meets_emit h .negi).always fun _ c₁ h₁ => (ih h₁).imp Iff.rfl fun _ c₂ _ h₂ => ?_
    simpa using h₂.trans

/-! ### Expressions -/

mutual

/-- Lowering an expression succeeds exactly if it has a type, and appends its code. -/
theorem meets_expr (e : Expr) {c : Context} {f : FnInfo} {p : Point} (h : c.At w f p) :
    (expr e).Meets c (∃ ty, e.type? p.env = some ty) fun ty c' =>
      e.type? p.env = some ty ∧ c'.Wrote w f (e.gen p).1 (e.gen p).2 := by
  match e with
  | .hole d =>
    rw [expr]
    exact meets_throw (by simp [Expr.type?])
  | .cutOff e d =>
    rw [expr]
    exact (meets_expr e h).bind (by simp [Expr.type?]) fun _ _ _ _ => meets_throw (by simp [Expr.type?])
  | .uint value =>
    rw [expr]
    refine (meets_emitWith h .push _).always fun _ c₁ h₁ => meets_pure ?_ ?_
    · exact ⟨_, rfl⟩
    · exact ⟨rfl, by simpa [Expr.gen, Expr.code, Expr.texts] using h₁⟩
  | .double value =>
    rw [expr]
    refine meets_pure ⟨_, rfl⟩ ⟨rfl, ?_⟩
    simpa [Expr.gen, Expr.code, Expr.texts] using h.wrote
  | .string text =>
    rw [expr]
    refine (meets_literal h text).always ?_
    rintro _ c₁ ⟨rfl, h₁⟩
    refine (meets_emitWith h₁ .push _).always fun _ c₂ h₂ => meets_pure ⟨_, rfl⟩ ⟨rfl, ?_⟩
    simpa [Expr.gen, Expr.code, Expr.texts] using h₂
  | .char ch =>
    rw [expr]
    refine (meets_emitWith h .push _).always fun _ c₁ h₁ => meets_pure ⟨_, rfl⟩ ⟨rfl, ?_⟩
    simpa [Expr.gen, Expr.code, Expr.texts] using h₁
  | .load name =>
    rw [expr]
    refine (meets_resolve h name).bind ?_ ?_
    · rintro ⟨ty, eq⟩
      cases found : p.env.find? name.name with
      | none => simp [Expr.type?, found] at eq
      | some b => exact ⟨b, rfl⟩
    rintro ⟨id, s⟩ _ ⟨b, found⟩ ⟨rfl, binding⟩
    rw [found] at binding
    dsimp only at binding ⊢
    cases b with
    | fn index ret =>
      obtain ⟨info, i, -, slot, -⟩ := Symbol.function_of_binding? binding
      rw [slot]
      refine Meets.bind (P := False) (Q := fun _ _ => True) (meets_throw not_false) ?_ fun _ _ no _ => no.elim
      simp [Expr.type?, found]
    | var slot ty isConst =>
      obtain ⟨-, rfl, rfl, -, notFn⟩ := Symbol.value_of_binding? binding
      refine (meets_address h name notFn).always fun _ c₁ h₁ => ?_
      refine (meets_emit h₁ .load64).always fun _ c₂ h₂ => meets_pure ?_ ?_
      · simp [Expr.type?, found]
      · refine ⟨by simp [Expr.type?, found], ?_⟩
        simpa [Expr.gen, Expr.code, Expr.texts, Env.address, found] using h₂.trans
  | .assign name e =>
    rw [expr]
    have need : (∃ ty, (Expr.assign name e).type? p.env = some ty) ↔
        (∃ slot, p.env.find? name.name = some (.var slot .int false)) ∧
          ∃ ty, e.type? p.env = some ty ∧ ty ≠ .void := by
      simp only [Expr.type?]
      split <;> simp_all
    simp only [need]
    refine (meets_target h name).bind And.left ?_
    rintro ⟨id, slot⟩ _ - ⟨rfl, found, notFn⟩
    refine (meets_address h name notFn).always fun _ c₁ h₁ => ?_
    refine (meets_expr e h₁).bind (fun ⟨_, ty, type, _⟩ => ⟨ty, type⟩) ?_
    rintro ty c₂ - ⟨type, h₂⟩
    refine (meets_storable name ty).bind ?_ ?_
    · rintro ⟨_, ty', type', ne⟩
      exact (Option.some.inj (type.symm.trans type')) ▸ ne
    rintro _ _ ne rfl
    refine (meets_emit h₂ .store64).always fun _ c₃ h₃ => ?_
    refine (meets_markInit h₃ id).always fun _ c₄ h₄ => meets_pure ⟨⟨_, found⟩, ty, type, ne⟩ ⟨?_, ?_⟩
    · rw [Point.env_emit] at type
      simp [Expr.type?, found, type, ne]
    · have := Context.Wrote.trans (Context.Wrote.trans (a := (e.gen _).1) h₄)
      simpa [Expr.gen, Expr.code, Expr.texts, Env.address, found] using this
  | .call name as =>
    rw [expr]
    have need : (∃ ty, (Expr.call name as).type? p.env = some ty) ↔
        (∃ index ret, p.env.find? name.name = some (.fn index ret)) ∧ as.typed p.env := by
      simp only [Expr.type?]
      split <;> simp_all
    simp only [need]
    refine (meets_callee h name).bind And.left ?_
    rintro info _ - ⟨rfl, found⟩
    refine (meets_emitWith h .stackalloc _).always fun _ c₁ h₁ => ?_
    refine (meets_args as h₁).bind And.right fun _ c₂ typed h₂ => ?_
    refine (meets_callInstr h₂ info.index).always fun _ c₃ h₃ =>
      meets_pure ⟨⟨_, _, found⟩, typed⟩ ⟨?_, ?_⟩
    · rw [Point.env_emit] at typed
      simp [Expr.type?, found, typed]
    · have := Context.Wrote.trans (Context.Wrote.trans (a := (as.gen _).1) h₃)
      simpa [Expr.gen, Args.gen, Expr.code, Expr.texts, found, FnInfo.returnSlots] using this
  | .paren e =>
    rw [expr]
    exact meets_expr e h
  | .neg signs e =>
    rw [expr, negations_eq]
    refine (meets_expr e h).bind (by simp [Expr.type?]) ?_
    rintro ty c₁ - ⟨type, h₁⟩
    refine (meets_negate _ h₁).always fun _ c₂ h₂ => meets_pure ⟨ty, by simpa [Expr.type?]⟩ ?_
    refine ⟨by simpa [Expr.type?], ?_⟩
    simpa [Expr.gen, Expr.code, Expr.texts] using h₂.trans
  | .cast e type =>
    rw [expr]
    have need : (∃ ty, (Expr.cast e type).type? p.env = some ty) ↔
        (Ty.ofName? type.name).isSome ∧ ∃ ty, e.type? p.env = some ty := by
      simp only [Expr.type?]
      split <;> simp_all
    simp only [need]
    refine (meets_expr e h).bind And.right ?_
    rintro ty c₁ typed ⟨eq, h₁⟩
    refine (meets_resultType type).bind And.left ?_
    rintro ty' _ known ⟨rfl, -⟩
    refine meets_pure ⟨known, typed⟩ ⟨by simp [Expr.type?, known, eq], ?_⟩
    simpa [Expr.gen, Expr.code, Expr.texts] using h₁
  | .arith op lhs rhs =>
    rw [expr]
    have need : (∃ ty, (Expr.arith op lhs rhs).type? p.env = some ty) ↔
        (∃ ty, lhs.type? p.env = some ty) ∧ ∃ ty, rhs.type? p.env = some ty := by
      simp only [Expr.type?]
      split <;> simp_all [Option.isSome_iff_exists]
    simp only [need]
    refine (meets_expr lhs h).bind And.left ?_
    rintro ty c₁ typed ⟨eq, h₁⟩
    refine (meets_expr rhs h₁).bind And.right ?_
    rintro ty' c₂ typed' ⟨eq', h₂⟩
    refine (meets_arith h₂ op).always fun _ c₃ h₃ => meets_pure ⟨typed, typed'⟩ ⟨?_, ?_⟩
    · have : (rhs.type? p.env).isSome := Option.isSome_iff_exists.2 typed'
      simp [Expr.type?, eq, this]
    · have := Context.Wrote.trans (Context.Wrote.trans (a := (rhs.gen _).1) h₃)
      simpa [Expr.gen, Expr.code, Expr.texts] using this
  | .compare op lhs rhs =>
    rw [expr]
    have need : (∃ ty, (Expr.compare op lhs rhs).type? p.env = some ty) ↔
        (∃ ty, lhs.type? p.env = some ty) ∧ ∃ ty, rhs.type? p.env = some ty := by
      simp only [Expr.type?]
      split <;> simp_all [Option.isSome_iff_exists]
    simp only [need]
    refine (meets_expr lhs h).bind And.left ?_
    rintro ty c₁ typed ⟨eq, h₁⟩
    refine (meets_expr rhs h₁).bind And.right ?_
    rintro ty' c₂ typed' ⟨eq', h₂⟩
    refine (meets_compare h₂ op ty).imp ⟨fun _ => ⟨typed, typed'⟩, fun _ => trivial⟩ ?_
    rintro _ c₃ - ⟨rfl, h₃⟩
    refine ⟨?_, ?_⟩
    · have : (rhs.type? p.env).isSome := Option.isSome_iff_exists.2 typed'
      simp [Expr.type?, eq, this]
    · have := Context.Wrote.trans (Context.Wrote.trans (a := (rhs.gen _).1) h₃)
      simpa [Expr.gen, Expr.code, Expr.texts] using this

/-- Lowering arguments appends their code one after the other. -/
theorem meets_args (as : Args) {c : Context} {f : FnInfo} {p : Point} (h : c.At w f p) :
    (args as).Meets c (as.typed p.env) fun _ c' => c'.Wrote w f (as.gen p).1 (as.gen p).2 := by
  match as with
  | .close =>
    rw [args]
    refine meets_pure rfl ?_
    simpa [Args.gen, Args.code, Args.texts] using h.wrote
  | .cutOff d =>
    rw [args]
    exact meets_throw (by simp [Args.typed])
  | .arg e rest =>
    rw [args]
    have need : (Args.arg e rest).typed p.env ↔ (∃ ty, e.type? p.env = some ty) ∧ rest.typed p.env := by
      simp [Args.typed, Option.isSome_iff_exists]
    simp only [need]
    refine (meets_expr e h).bind And.left ?_
    rintro ty c₁ typed ⟨-, h₁⟩
    refine (meets_args rest h₁).imp ⟨fun h => ⟨typed, h⟩, And.right⟩ fun _ c₂ _ h₂ => ?_
    simpa [Expr.gen, Args.gen, Args.code, Args.texts] using h₂.trans

end

/-- Lowering a condition succeeds if it has a type, and appends its code with a branch at the end. -/
theorem meets_condition (h : c.At w f p) (e : Expr) :
    (condition e).Meets c (∃ ty, e.type? p.env = some ty) fun _ c' =>
      c'.Wrote w f (e.genCond p).1 (e.genCond p).2 := by
  refine (meets_expr e h).bind id ?_
  rintro ty c₁ typed ⟨-, h₁⟩
  have last : c₁.table.lastOpcode? c₁.current = .ok (e.gen p).2.last := by
    simp [Table.lastOpcode?, h₁.function, h₁.last, bind, Except.bind, pure, Except.pure]
  refine (meets_ask (P := True) (Q := fun r c' => r = (e.gen p).2.last ∧ c' = c₁) ?_).always ?_
  · rw [last]
    exact ⟨trivial, rfl, rfl⟩
  rintro _ _ ⟨rfl, rfl⟩
  unfold Expr.genCond Point.test
  dsimp only
  by_cases cond : (e.gen p).2.last.any Opcode.isConditional
  · simp only [cond, Bool.not_true, Bool.false_eq_true, if_false, if_true, List.append_nil,
      Point.emit_nil]
    exact meets_pure typed h₁
  · simp only [cond, Bool.not_false, if_true, Bool.false_eq_true, if_false]
    exact (meets_emitWith h₁ .brtrue 1).imp ⟨fun _ => typed, fun _ => trivial⟩ fun _ _ _ h₂ => h₂.trans

end Lower

end CZero
