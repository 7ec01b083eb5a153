import CZero.Proofs.Grammar.Scanned
import CZero.Proofs.Lowering.Stmt

/-!
# Who is to blame for a fault

Lowering also has faults that no source is to blame for: a function number that stands for nothing, and
an instruction that is not there to be patched. They are worded like others. That the former is never
reported needs two things: the table always has the function that lowering is in, and no name of a
source looks like such a number.

`x.Reports c` says that step `x`, started in context `c`, fails with a mistake of the source if it fails.
-/

namespace CZero

namespace Cause

/-- The fault is that of a source, found while it is lowered. -/
def IsMistake : Cause → Prop
  | .notDeclared name => IsName name
  | .mainMissing | .unresolvedOperand _ => False
  | _ => True

/-- The fault is that of the compiler: an operand or a function is missing. -/
def IsInternal (cause : Cause) : Prop :=
  (∃ what, cause = .unresolvedOperand what) ∨ ∃ index, cause = Table.noFunction index

theorem IsSyntactic.isMistake {cause : Cause} (h : cause.IsSyntactic) : cause.IsMistake := by
  cases cause with
  | notDeclared name | mainMissing | unresolvedOperand what => rcases h with h | h <;> cases h
  | _ => trivial

/-- No name has a blank in it. -/
theorem IsMistake.not_isInternal {cause : Cause} (h : cause.IsMistake) : ¬cause.IsInternal := by
  rintro (⟨what, rfl⟩ | ⟨index, rfl⟩)
  · exact h
  · have blank : ' ' ∈ ("function #" ++ toString index).toList := by
      rw [String.toList_append]
      exact List.mem_append_left _ (by decide)
    exact absurd (h ' ' blank) (by decide)

end Cause

namespace Lower

/-- If a step fails, then with a mistake of the source. -/
def Reports {α : Type} (x : Lower α) (c : Context) : Prop :=
  ∀ d, x c = .error d → d.cause.IsMistake

section Reports

variable {α β : Type} {c : Context} {P : Prop} {Q : α → Context → Prop}

theorem reports_pure (a : α) : Reports (pure a) c :=
  nofun

theorem reports_throw {d : Diagnostic} (h : d.cause.IsMistake) : Reports (throw d : Lower α) c := by
  rintro _ ⟨⟩
  exact h

/-- What would come after a fault does not matter. -/
theorem reports_throw_bind {d : Diagnostic} {g : α → Lower β} (h : d.cause.IsMistake) :
    (throw d >>= g).Reports c := by
  rintro _ ⟨⟩
  exact h

/-- A step that succeeds reports nothing. -/
theorem Meets.reports {x : Lower α} (h : x.Meets c P Q) (holds : P) : x.Reports c := by
  intro d fault
  unfold Meets at h
  rw [fault] at h
  exact absurd holds h

/-- One step after the other. -/
theorem Reports.bind {x : Lower α} {g : α → Lower β} (first : x.Reports c)
    (next : ∀ a c', x c = .ok (a, c') → (g a).Reports c') : (x >>= g).Reports c := by
  intro d fault
  rw [bind_apply] at fault
  split at fault
  · next a c' eq => exact next a c' eq d fault
  · next eq =>
    cases fault
    exact first _ eq

/-- What comes next has what the first step gave. -/
theorem Meets.reports_bind {x : Lower α} {g : α → Lower β} (h : x.Meets c P Q) (first : x.Reports c)
    (next : ∀ a c', P → Q a c' → (g a).Reports c') : (x >>= g).Reports c := by
  refine first.bind fun a c' eq => ?_
  unfold Meets at h
  rw [eq] at h
  exact next a c' h.1 h.2

/-- A step after one that succeeds. -/
theorem Meets.reports_then {x : Lower α} {g : α → Lower β} (h : x.Meets c True Q)
    (next : ∀ a c', Q a c' → (g a).Reports c') : (x >>= g).Reports c :=
  h.reports_bind (h.reports trivial) fun a c' _ => next a c'

theorem reports_update {position : Position} {f : Table → Except Cause (α × Table)}
    (h : ∀ cause, f c.table = .error cause → cause.IsMistake) : (update position f).Reports c := by
  intro d fault
  rw [update_apply] at fault
  cases eq : f c.table with
  | ok result =>
    rw [eq] at fault
    cases fault
  | error cause =>
    rw [eq] at fault
    cases fault
    exact h _ eq

end Reports

variable {w : Surroundings} {c : Context} {f : FnInfo} {p : Point}

/-! ### Names and types -/

theorem reports_resolve {name : Ident} (hx : IsName name.name) : (resolve name).Reports c := by
  refine reports_update fun cause fault => ?_
  simp only [Table.lookup, bind, Except.bind] at fault
  split at fault
  · next missing =>
    split at missing <;> cases missing
    cases fault
    exact hx
  · split at fault <;> cases fault
    exact hx

theorem reports_declare (name : Ident) (s : Symbol) : (declare name s).Reports c := by
  refine (reports_update fun cause fault => ?_).bind fun _ _ _ => reports_pure _
  unfold Table.declare at fault
  dsimp only at fault
  split at fault <;> cases fault
  trivial

theorem reports_valueType (name type : Ident) : (valueType name type).Reports c := by
  unfold valueType
  split
  · split
    · exact reports_pure _
    · exact reports_throw trivial
  · exact reports_throw trivial

theorem reports_resultType (type : Ident) : (resultType type).Reports c := by
  unfold resultType
  split
  · exact reports_pure _
  · exact reports_throw trivial

theorem reports_storable (name : Ident) (ty : Ty) : (storable name ty).Reports c := by
  unfold storable
  split
  · exact reports_throw trivial
  · exact reports_pure _

theorem reports_callee (h : c.At w f p) {name : Ident} (hx : IsName name.name) :
    (callee name).Reports c := by
  refine (meets_resolve h name).reports_bind (reports_resolve hx) fun ⟨id, s⟩ _ _ _ => ?_
  dsimp only
  split
  · exact reports_pure _
  · exact reports_throw hx

theorem reports_target (h : c.At w f p) {name : Ident} (hx : IsName name.name) :
    (target name).Reports c := by
  refine (meets_resolve h name).reports_bind (reports_resolve hx) fun ⟨id, s⟩ _ _ _ => ?_
  dsimp only
  split
  · exact reports_throw_bind trivial
  · split
    · exact reports_throw_bind trivial
    · exact reports_pure _

/-! ### Expressions -/

mutual

/-- Lowering an expression of a source fails with a mistake of the source, if it fails. -/
theorem reports_expr (e : Expr) {c : Context} {f : FnInfo} {p : Point} (h : c.At w f p) (he : e.IsScanned) :
    (expr e).Reports c := by
  match e with
  | .hole d =>
    rw [expr]
    exact reports_throw (Cause.IsSyntactic.isMistake he)
  | .cutOff e d =>
    rw [expr]
    obtain ⟨he, hd⟩ := he
    exact (meets_expr e h).reports_bind (reports_expr e h he) fun _ _ _ _ => reports_throw hd.isMistake
  | .uint _ | .double _ | .string _ | .char _ => exact (meets_expr _ h).reports ⟨_, rfl⟩
  | .load name =>
    rw [expr]
    refine (meets_resolve h name).reports_bind (reports_resolve he) fun ⟨id, s⟩ c₁ _ ⟨same, _⟩ => ?_
    subst same
    dsimp only
    cases hs : s.slot with
    | fn i => exact reports_throw_bind he
    | arg i | loc i | glob i =>
      refine (meets_address h name (by simp)).reports_then fun _ c₁ h₁ => ?_
      exact (meets_emit h₁ .load64).reports_then fun _ _ _ => reports_pure _
  | .assign name e =>
    rw [expr]
    obtain ⟨hx, he⟩ := he
    refine (meets_target h name).reports_bind (reports_target h hx) ?_
    rintro ⟨id, slot⟩ _ - ⟨rfl, -, notFn⟩
    refine (meets_address h name notFn).reports_then fun _ c₁ h₁ => ?_
    refine (meets_expr e h₁).reports_bind (reports_expr e h₁ he) fun ty c₂ _ ⟨_, h₂⟩ => ?_
    refine (meets_storable name ty).reports_bind (reports_storable name ty) ?_
    rintro _ _ - rfl
    refine (meets_emit h₂ .store64).reports_then fun _ c₃ h₃ => ?_
    exact (meets_markInit h₃ id).reports_then fun _ _ _ => reports_pure _
  | .call name as =>
    rw [expr]
    obtain ⟨hx, has⟩ := he
    refine (meets_callee h name).reports_bind (reports_callee h hx) ?_
    rintro info _ - ⟨rfl, -⟩
    refine (meets_emitWith h .stackalloc _).reports_then fun _ c₁ h₁ => ?_
    refine (meets_args as h₁).reports_bind (reports_args as h₁ has) fun _ c₂ _ h₂ => ?_
    exact (meets_callInstr h₂ info.index).reports_then fun _ _ _ => reports_pure _
  | .paren e =>
    rw [expr]
    exact reports_expr e h he
  | .neg signs e =>
    rw [expr]
    refine (meets_expr e h).reports_bind (reports_expr e h he) fun _ c₁ _ ⟨_, h₁⟩ => ?_
    exact (meets_negate _ h₁).reports_then fun _ _ _ => reports_pure _
  | .cast e type =>
    rw [expr]
    refine (meets_expr e h).reports_bind (reports_expr e h he) fun _ c₁ _ _ => ?_
    exact (meets_resultType type).reports_bind (reports_resultType type) fun _ _ _ _ => reports_pure _
  | .arith op lhs rhs =>
    rw [expr]
    obtain ⟨hl, hr⟩ := he
    refine (meets_expr lhs h).reports_bind (reports_expr lhs h hl) fun _ c₁ _ ⟨_, h₁⟩ => ?_
    refine (meets_expr rhs h₁).reports_bind (reports_expr rhs h₁ hr) fun _ c₂ _ ⟨_, h₂⟩ => ?_
    exact (meets_emit h₂ op.opcode).reports_then fun _ _ _ => reports_pure _
  | .compare op lhs rhs =>
    rw [expr]
    obtain ⟨hl, hr⟩ := he
    refine (meets_expr lhs h).reports_bind (reports_expr lhs h hl) fun ty c₁ _ ⟨_, h₁⟩ => ?_
    refine (meets_expr rhs h₁).reports_bind (reports_expr rhs h₁ hr) fun _ c₂ _ ⟨_, h₂⟩ => ?_
    exact (meets_compare h₂ op ty).reports trivial

/-- Lowering arguments of a source fails with a mistake of the source, if it fails. -/
theorem reports_args (as : Args) {c : Context} {f : FnInfo} {p : Point} (h : c.At w f p)
    (has : as.IsScanned) : (args as).Reports c := by
  match as with
  | .close =>
    rw [args]
    exact reports_pure _
  | .cutOff d =>
    rw [args]
    exact reports_throw (Cause.IsSyntactic.isMistake has)
  | .arg e rest =>
    rw [args]
    obtain ⟨he, hrest⟩ := has
    refine (meets_expr e h).reports_bind (reports_expr e h he) fun _ c₁ _ ⟨_, h₁⟩ => ?_
    exact reports_args rest h₁ hrest

end

/-- A condition has no faults but those of its expression. -/
theorem reports_condition (h : c.At w f p) {e : Expr} (he : e.IsScanned) : (condition e).Reports c := by
  refine (meets_expr e h).reports_bind (reports_expr e h he) fun _ c₁ _ ⟨_, h₁⟩ => ?_
  have last : (ask (·.lastOpcode? ·)).Meets c₁ True fun _ c' => c₁ = c' := by
    refine meets_ask ?_
    simp [Table.lastOpcode?, h₁.function, bind, Except.bind, pure, Except.pure]
  refine last.reports_then ?_
  rintro _ _ rfl
  split
  · exact (meets_emitWith h₁ .brtrue 1).reports trivial
  · exact reports_pure _

/-! ### Return -/

theorem reports_ret (h : c.At w f p) (keyword : Position) {value : Option Expr}
    (hv : ∀ e ∈ value, e.IsScanned) : (ret keyword value).Reports c := by
  refine (meets_function h).reports_then ?_
  rintro _ _ ⟨rfl, rfl⟩
  cases value with
  | none =>
    dsimp only
    split
    · exact reports_throw_bind trivial
    · exact (meets_emit h .ret).reports trivial
  | some e =>
    refine (meets_emitWith h .arga 0).reports_then fun _ c₁ h₁ => ?_
    refine (meets_expr e h₁).reports_bind (reports_expr e h₁ (hv e rfl)) fun found c₂ _ ⟨_, h₂⟩ => ?_
    dsimp only
    split
    · exact reports_throw_bind trivial
    · exact (meets_emit h₂ .store64).reports_then fun _ c₃ h₃ => (meets_emit h₃ .ret).reports trivial

end Lower

end CZero
