import CZero.Compiler
import CZero.Proofs.Grammar.Descent
import CZero.Proofs.Lowering.Context

/-!
# What lowering reports about the grammar

Lowering finds many faults of its own, but none of the grammar: what it reports about the order of
tokens is the diagnostic in a hole of the tree. `x.Obeys ds` says so of a step, for the holes `ds`.
-/

namespace CZero

/-! ### Tables -/

/-- A computation does not fail with a fault of the grammar. -/
def Spares {α : Type} (x : Except Cause α) : Prop :=
  ∀ cause, x = .error cause → cause.isGrammar = false

theorem spares_ok {α : Type} (a : α) : Spares (.ok a) :=
  nofun

theorem spares_error {α : Type} {cause : Cause} (h : cause.isGrammar = false) :
    Spares (.error cause : Except Cause α) := by
  rintro _ ⟨⟩
  exact h

theorem Spares.bind {α β : Type} {x : Except Cause α} {g : α → Except Cause β} (hx : Spares x)
    (hg : ∀ a, Spares (g a)) : Spares (x >>= g) := by
  cases x with
  | ok a => exact hg a
  | error cause => exact spares_error (hx cause rfl)

namespace Table

variable (t : Table)

theorem spares_function (index : Nat) : Spares (t.function index) := by
  unfold function
  split
  · exact spares_ok _
  · exact spares_error rfl

theorem spares_modifyFunction (index : Nat) (f : FnInfo → FnInfo) : Spares (t.modifyFunction index f) := by
  refine (t.spares_function index).bind fun _ => ?_
  split
  · exact spares_ok _
  · exact spares_error rfl

theorem spares_addLocal (index : Nat) (name : String) : Spares (t.addLocal index name) :=
  (t.spares_function index).bind fun _ => (t.spares_modifyFunction index _).bind fun _ => spares_ok _

theorem spares_append (index : Nat) (i : Instr) : Spares (t.append index i) :=
  (t.spares_function index).bind fun _ => (t.spares_modifyFunction index _).bind fun _ => spares_ok _

theorem spares_placeholder (index : Nat) (op : Opcode) : Spares (t.placeholder index op) :=
  (t.spares_append index _).bind fun _ => spares_ok _

theorem spares_patch (site : Site) (operand : Int64) : Spares (t.patch site operand) := by
  refine (t.spares_function site.function).bind fun _ => ?_
  split
  · exact t.spares_modifyFunction _ _
  · exact spares_error rfl

theorem spares_declare (s : Symbol) : Spares (t.declare s) := by
  unfold Table.declare
  dsimp only
  split
  · exact spares_error rfl
  · exact spares_ok _

theorem spares_lookup (name : String) : Spares (t.lookup name) := by
  unfold lookup
  split
  · exact spares_ok _
  · exact spares_error rfl

end Table

/-! ### Steps of lowering -/

namespace Lower

/-- If a step fails with a fault of the grammar, then with one of `ds`. -/
def Obeys {α : Type} (x : Lower α) (ds : List Diagnostic) : Prop :=
  ∀ (c : Context) (d : Diagnostic), x c = .error d → d.cause.isGrammar → d ∈ ds

section Obeys

variable {α β : Type} {ds : List Diagnostic}

theorem obeys_pure (a : α) : Obeys (pure a) ds :=
  nofun

theorem obeys_throw {d : Diagnostic} (mem : d ∈ ds) : Obeys (throw d : Lower α) ds := by
  rintro _ _ ⟨⟩ -
  exact mem

theorem obeys_fail {cause : Cause} {position : Position} (h : cause.isGrammar = false) :
    Obeys (fail cause position : Lower α) ds := by
  rintro _ _ ⟨⟩ grammar
  exact absurd grammar (Bool.eq_false_iff.1 h)

/-- What would come after a fault does not matter. -/
theorem obeys_fail_bind {cause : Cause} {position : Position} {g : α → Lower β}
    (h : cause.isGrammar = false) : (fail cause position >>= g).Obeys ds := by
  rintro _ _ ⟨⟩ grammar
  exact absurd grammar (Bool.eq_false_iff.1 h)

theorem obeys_throw_bind {d : Diagnostic} {g : α → Lower β} (mem : d ∈ ds) : (throw d >>= g).Obeys ds := by
  rintro _ _ ⟨⟩ -
  exact mem

theorem Obeys.bind {x : Lower α} {g : α → Lower β} (hx : x.Obeys ds) (hg : ∀ a, (g a).Obeys ds) :
    (x >>= g).Obeys ds := by
  intro c d failed
  rw [bind_apply] at failed
  cases eq : x c with
  | ok result =>
    rw [eq] at failed
    exact hg _ _ d failed
  | error e =>
    rw [eq] at failed
    cases failed
    exact hx c _ eq

theorem obeys_get : Obeys get ds :=
  nofun

theorem obeys_modify (f : Context → Context) : Obeys (modify f) ds :=
  nofun

theorem obeys_update {position : Position} {f : Table → Except Cause (α × Table)}
    (h : ∀ t, Spares (f t)) : (update position f).Obeys ds := by
  intro c d failed grammar
  rw [update_apply] at failed
  cases eq : f c.table with
  | ok result =>
    rw [eq] at failed
    cases failed
  | error cause =>
    rw [eq] at failed
    cases failed
    exact absurd grammar (Bool.eq_false_iff.1 (h _ cause eq))

theorem obeys_ask {f : Table → Nat → Except Cause α} (h : ∀ t i, Spares (f t i)) : (ask f).Obeys ds :=
  obeys_get.bind fun _ => obeys_update fun t => (h t _).bind fun _ => spares_ok _

theorem obeys_edit {f : Table → Nat → Except Cause (α × Table)} (h : ∀ t i, Spares (f t i)) :
    (edit f).Obeys ds :=
  obeys_get.bind fun _ => obeys_update fun t => h t _

theorem obeys_emit (op : Opcode) : (emit op).Obeys ds :=
  (obeys_edit fun t i => t.spares_append i _).bind fun _ => obeys_pure _

theorem obeys_emitWith (op : Opcode) (operand : Int64) : (emitWith op operand).Obeys ds :=
  (obeys_edit fun t i => t.spares_append i _).bind fun _ => obeys_pure _

theorem obeys_negate (n : Nat) : (negate n).Obeys ds := by
  induction n with
  | zero => exact obeys_pure _
  | succ n ih => exact (obeys_emit _).bind fun _ => ih

theorem obeys_placeholder (op : Opcode) : (placeholder op).Obeys ds :=
  obeys_edit fun t i => t.spares_placeholder i op

theorem obeys_patch (site : Site) (operand : Int64) : (patch site operand).Obeys ds :=
  obeys_update fun t => (t.spares_patch site operand).bind fun _ => spares_ok _

theorem obeys_function : (ask (·.function ·)).Obeys ds :=
  obeys_ask fun t i => t.spares_function i

theorem obeys_here : here.Obeys ds :=
  obeys_ask fun t i => (t.spares_function i).bind fun _ => spares_ok _

theorem obeys_declare (name : Ident) (s : Symbol) : (declare name s).Obeys ds :=
  (obeys_update fun t => t.spares_declare s).bind fun _ => obeys_pure _

theorem obeys_literal (text : String) : (update .nowhere fun t => .ok (t.declareLiteral text)).Obeys ds :=
  obeys_update fun _ => spares_ok _

theorem obeys_markInit (id : Nat) : (update .nowhere fun t => .ok ((), t.markInit id)).Obeys ds :=
  obeys_update fun _ => spares_ok _

theorem obeys_resolve (name : Ident) : (resolve name).Obeys ds := by
  refine obeys_update fun t => (t.spares_lookup name.name).bind fun id => ?_
  split
  · exact spares_ok _
  · exact spares_error rfl

theorem obeys_valueType (name type : Ident) : (valueType name type).Obeys ds := by
  unfold valueType
  split
  · split
    · exact obeys_pure _
    · exact obeys_fail rfl
  · exact obeys_fail rfl

theorem obeys_resultType (type : Ident) : (resultType type).Obeys ds := by
  unfold resultType
  split
  · exact obeys_pure _
  · exact obeys_fail rfl

end Obeys

variable {ds : List Diagnostic}

/-! ### Expressions -/

theorem obeys_address (name : Ident) (slot : Slot) : (address name slot).Obeys ds := by
  cases slot with
  | arg i => exact obeys_function.bind fun _ => obeys_emitWith _ _
  | loc i => exact obeys_emitWith _ _
  | glob i => exact obeys_emitWith _ _
  | fn i => exact obeys_fail rfl

theorem obeys_callee (name : Ident) : (callee name).Obeys ds := by
  refine (obeys_resolve name).bind fun ⟨_, s⟩ => ?_
  dsimp only
  split
  · exact obeys_pure _
  · exact obeys_fail rfl

theorem obeys_callInstr (index : Nat) : (callInstr index).Obeys ds := by
  unfold callInstr
  split
  · exact obeys_emitWith _ _
  · exact obeys_emitWith _ _

theorem obeys_target (name : Ident) : (target name).Obeys ds := by
  refine (obeys_resolve name).bind fun ⟨id, s⟩ => ?_
  dsimp only
  split
  · exact obeys_fail_bind rfl
  · split
    · exact obeys_fail_bind rfl
    · exact obeys_pure _

theorem obeys_storable (name : Ident) (ty : Ty) : (storable name ty).Obeys ds := by
  unfold storable
  split
  · exact obeys_fail rfl
  · exact obeys_pure _

mutual

/-- Lowering an expression reports no fault of the grammar but those in its holes. -/
theorem obeys_expr : (e : Expr) → e.faults ⊆ ds → (expr e).Obeys ds
  | .hole d, h => by
    rw [expr]
    exact obeys_throw (h (.head _))
  | .cutOff e d, h => by
    rw [expr]
    have parts := List.append_subset.1 h
    exact (obeys_expr e parts.1).bind fun _ => obeys_throw (parts.2 (.head _))
  | .uint _, _ | .char _, _ => by
    rw [expr]
    exact (obeys_emitWith _ _).bind fun _ => obeys_pure _
  | .double _, _ => by
    rw [expr]
    exact obeys_pure _
  | .string text, _ => by
    rw [expr]
    refine (obeys_literal text).bind fun _ => ?_
    exact (obeys_emitWith _ _).bind fun _ => obeys_pure _
  | .load name, _ => by
    rw [expr]
    refine (obeys_resolve name).bind fun ⟨_, s⟩ => (obeys_address name _).bind fun _ => ?_
    exact (obeys_emit _).bind fun _ => obeys_pure _
  | .assign name e, h => by
    rw [expr]
    refine (obeys_target name).bind fun ⟨id, slot⟩ => (obeys_address name _).bind fun _ => ?_
    refine (obeys_expr e h).bind fun ty => (obeys_storable name ty).bind fun _ => ?_
    exact (obeys_emit _).bind fun _ => (obeys_markInit id).bind fun _ => obeys_pure _
  | .call name as, h => by
    rw [expr]
    refine (obeys_callee name).bind fun info => (obeys_emitWith _ _).bind fun _ => ?_
    exact (obeys_args as h).bind fun _ => (obeys_callInstr _).bind fun _ => obeys_pure _
  | .paren e, h => by
    rw [expr]
    exact obeys_expr e h
  | .neg signs e, h => by
    rw [expr]
    exact (obeys_expr e h).bind fun _ => (obeys_negate _).bind fun _ => obeys_pure _
  | .cast e type, h => by
    rw [expr]
    exact (obeys_expr e h).bind fun _ => (obeys_resultType type).bind fun _ => obeys_pure _
  | .arith op lhs rhs, h => by
    rw [expr]
    have parts := List.append_subset.1 h
    refine (obeys_expr lhs parts.1).bind fun _ => (obeys_expr rhs parts.2).bind fun _ => ?_
    exact (obeys_emit _).bind fun _ => obeys_pure _
  | .compare op lhs rhs, h => by
    rw [expr]
    have parts := List.append_subset.1 h
    refine (obeys_expr lhs parts.1).bind fun _ => (obeys_expr rhs parts.2).bind fun _ => ?_
    refine (obeys_emit _).bind fun _ => ?_
    have branch (op : Opcode) (ty : Ty) : (do emitWith op 1; return ty : Lower Ty).Obeys ds :=
      (obeys_emitWith _ _).bind fun _ => obeys_pure _
    dsimp only
    split
    · exact (obeys_emit _).bind fun _ => branch _ _
    · exact branch _ _

/-- Lowering arguments reports no fault of the grammar but those in their holes. -/
theorem obeys_args : (as : Args) → as.faults ⊆ ds → (args as).Obeys ds
  | .close, _ => by
    rw [args]
    exact obeys_pure _
  | .cutOff d, h => by
    rw [args]
    exact obeys_throw (h (.head _))
  | .arg e rest, h => by
    rw [args]
    have parts := List.append_subset.1 h
    exact (obeys_expr e parts.1).bind fun _ => obeys_args rest parts.2

end

theorem obeys_condition (e : Expr) (h : e.faults ⊆ ds) : (condition e).Obeys ds := by
  refine (obeys_expr e h).bind fun _ => ?_
  refine (obeys_ask fun t i => (t.spares_function i).bind fun _ => spares_ok _).bind fun last => ?_
  split
  · exact obeys_emitWith _ _
  · exact obeys_pure _

/-! ### Declarations and statements -/

/-- One of two steps, and then the same. -/
theorem obeys_ite_bind {α β : Type} {p : Prop} [Decidable p] {x y : Lower α} {g : α → Lower β}
    (hx : x.Obeys ds) (hy : y.Obeys ds) (hg : ∀ a, (g a).Obeys ds) :
    (if p then x >>= g else y >>= g).Obeys ds := by
  split
  · exact hx.bind hg
  · exact hy.bind hg

theorem Obeys.map {α β : Type} {x : Lower α} (h : x.Obeys ds) (f : α → β) : (f <$> x).Obeys ds := by
  rw [map_eq_pure_bind]
  exact h.bind fun _ => obeys_pure _

/-- A step that is taken unless a semicolon is missing. -/
theorem obeys_unless_cutOff {cutOff : Option Diagnostic} {x : Lower Unit} :
    cutOff.toList ⊆ ds → x.Obeys ds → (match cutOff with
      | some fault => throw fault >>= fun _ : PUnit => x
      | _ => x : Lower Unit).Obeys ds := by
  intro h hx
  cases cutOff with
  | none => exact hx
  | some fault => exact obeys_throw_bind (h (.head _))

/-- The end of a declaration: its name counts from now on, and its slot is patched in. -/
theorem obeys_complete {name : Ident} {s : Context → Symbol} {site : Option Site}
    {operand : Context → Int64} : (do
      let c ← get
      declare name (s c)
      match site with
      | some site => patch site (operand c)
      | _ => pure () : Lower Unit).Obeys ds := by
  refine obeys_get.bind fun c => (obeys_declare _ _).bind fun _ => ?_
  split
  · exact obeys_patch _ _
  · exact obeys_pure _

theorem obeys_store {name : Ident} {e : Expr} {x : Lower Unit} (h : e.faults ⊆ ds) (hx : x.Obeys ds) :
    (do
      let ty ← expr e
      storable name ty
      emit .store64
      x : Lower Unit).Obeys ds :=
  (obeys_expr e h).bind fun _ => (obeys_storable _ _).bind fun _ => (obeys_emit _).bind fun _ => hx

theorem obeys_decl (d : Decl) (h : d.faults ⊆ ds) : (decl d).Obeys ds := by
  obtain ⟨isConst, name, type, init, cutOff⟩ := d
  obtain ⟨value, complete⟩ := List.append_subset.1 h
  refine (obeys_valueType name type).bind fun ty => obeys_get.bind fun c => ?_
  refine obeys_ite_bind (obeys_pure _) ((obeys_edit fun t i => t.spares_addLocal i _).map _) ?_
  intro reserved
  cases init with
  | none => exact (obeys_pure _).bind fun site => obeys_unless_cutOff complete obeys_complete
  | some e =>
    cases reserved with
    | none =>
      refine ((obeys_placeholder _).map _).bind fun site => ?_
      exact obeys_store value ((obeys_pure _).bind fun _ => obeys_unless_cutOff complete obeys_complete)
    | some index =>
      refine (obeys_emitWith _ _).bind fun _ => (obeys_pure _).bind fun site => ?_
      exact obeys_store value ((obeys_pure _).bind fun _ => obeys_unless_cutOff complete obeys_complete)

theorem obeys_ret (keyword : Position) (value : Option Expr) (h : optionalFaults value ⊆ ds) :
    (ret keyword value).Obeys ds := by
  refine obeys_function.bind fun info => ?_
  cases value with
  | none =>
    dsimp only
    split
    · exact obeys_fail_bind rfl
    · exact obeys_emit _
  | some e =>
    refine (obeys_emitWith _ _).bind fun _ => (obeys_expr e h).bind fun found => ?_
    dsimp only
    split
    · exact obeys_fail_bind rfl
    · exact (obeys_emit _).bind fun _ => obeys_emit _

mutual

/-- Lowering a statement reports no fault of the grammar but those in its holes. -/
theorem obeys_stmt : (s : Stmt) → s.faults ⊆ ds → (stmt s).Obeys ds
  | .decl d, h => by
    rw [stmt]
    exact obeys_decl d h
  | .cond c, h => by
    rw [stmt]
    exact obeys_ifChain c h
  | .loop e body, h => by
    rw [stmt]
    have parts := List.append_subset.1 h
    refine (obeys_emitWith _ _).bind fun _ => obeys_here.bind fun again => ?_
    refine (obeys_condition e parts.1).bind fun _ => (obeys_placeholder _).bind fun leave => ?_
    refine (obeys_block body parts.2).bind fun _ => obeys_here.bind fun back => ?_
    exact (obeys_emitWith _ _).bind fun _ => obeys_patch _ _
  | .ret keyword value, h => by
    rw [stmt]
    exact obeys_ret keyword value h
  | .block b, h => by
    rw [stmt]
    exact obeys_block b h
  | .empty, _ => by
    rw [stmt]
    exact obeys_pure _
  | .expr e, h => by
    rw [stmt]
    exact (obeys_expr e h).bind fun _ => obeys_pure _

/-- Lowering a block reports no fault of the grammar but those in its holes. -/
theorem obeys_block : (b : Block) → b.faults ⊆ ds → (block b).Obeys ds
  | .close, _ => by
    rw [block]
    exact obeys_pure _
  | .cutOff d, h => by
    rw [block]
    exact obeys_throw (h (.head _))
  | .stmt s rest, h => by
    rw [block]
    have parts := List.append_subset.1 h
    exact (obeys_stmt s parts.1).bind fun _ => obeys_block rest parts.2

/-- Lowering a conditional statement reports no fault of the grammar but those in its holes. -/
theorem obeys_ifChain : (c : IfChain) → c.faults ⊆ ds → (ifChain c).Obeys ds
  | .mk e body otherwise, h => by
    rw [ifChain]
    have parts := List.append_subset.1 h
    have blocks := List.append_subset.1 parts.2
    refine (obeys_condition e parts.1).bind fun _ => (obeys_placeholder _).bind fun skip => ?_
    refine (obeys_block body blocks.1).bind fun _ => (obeys_elsePart otherwise blocks.2).bind fun jump => ?_
    refine obeys_here.bind fun last => ?_
    cases jump with
    | none => exact (obeys_patch _ _).bind fun _ => obeys_emitWith _ _
    | some jump =>
      refine (obeys_patch _ _).bind fun _ => ?_
      exact (obeys_patch _ _).bind fun _ => obeys_emitWith _ _

/-- Lowering what follows a conditional block reports no fault of the grammar but those in its
holes. -/
theorem obeys_elsePart : (o : Else) → o.faults ⊆ ds → (elsePart o).Obeys ds
  | .absent, _ => by
    rw [elsePart]
    exact obeys_pure _
  | .block b, h => by
    rw [elsePart]
    exact (obeys_placeholder _).bind fun _ => (obeys_block b h).bind fun _ => obeys_pure _
  | .chain c, h => by
    rw [elsePart]
    exact (obeys_placeholder _).bind fun _ => (obeys_ifChain c h).bind fun _ => obeys_pure _

end

/-! ### Programs -/

theorem obeys_paramTypes (ps : List Param) : (paramTypes ps).Obeys ds := by
  induction ps with
  | nil => exact obeys_pure _
  | cons p ps ih => exact (obeys_valueType _ _).bind fun _ => ih.bind fun _ => obeys_pure _

theorem obeys_declareParams (layer index : Nat) (ps : List (Param × Ty)) :
    (declareParams layer index ps).Obeys ds := by
  induction ps generalizing index with
  | nil => exact obeys_pure _
  | cons p ps ih => exact (obeys_declare _ _).bind fun _ => ih (index + 1)

theorem obeys_fnItem (f : FnItem) (h : (Item.fn f).faults ⊆ ds) : (fnItem f).Obeys ds := by
  obtain ⟨name, params, type, body⟩ := f
  have parts := List.append_subset.1 h
  refine (obeys_paramTypes params).bind fun types => ?_
  cases type with
  | error d => exact obeys_throw_bind (parts.1 (.head _))
  | ok type =>
    refine (obeys_resultType type).bind fun ret => obeys_get.bind fun c => ?_
    refine (obeys_declare _ _).bind fun _ => ?_
    refine (obeys_modify _).bind fun _ => obeys_get.bind fun c => ?_
    refine (obeys_declareParams _ _ _).bind fun _ => (obeys_modify _).bind fun _ => ?_
    refine (obeys_block body parts.2).bind fun _ => ?_
    dsimp only
    split
    · exact (obeys_emit _).bind fun _ => obeys_modify _
    · exact obeys_modify _

theorem obeys_items (is : List Item) (h : is.flatMap Item.faults ⊆ ds) : (items is).Obeys ds := by
  induction is with
  | nil => exact obeys_pure _
  | cons i is ih =>
    rw [List.flatMap_cons, List.append_subset] at h
    cases i with
    | fn f => exact (obeys_fnItem f h.1).bind fun _ => ih h.2
    | decl d => exact (obeys_decl d h.1).bind fun _ => ih h.2

theorem obeys_callMain : callMain.Obeys ds := by
  refine obeys_get.bind fun c => ?_
  split
  · refine (obeys_update fun t => (t.spares_function _).bind fun _ => spares_ok _).bind fun info => ?_
    exact (obeys_emitWith _ _).bind fun _ => obeys_emitWith _ _
  · exact obeys_pure _

theorem obeys_program (p : Program) : (program p).Obeys p.faults := by
  refine (obeys_items p.items (List.subset_append_left ..)).bind fun _ => ?_
  have missing : missing p.finish ⊆ p.faults := List.subset_append_right ..
  split
  · exact obeys_callMain.bind fun _ => obeys_pure _
  · next d eq =>
    rw [eq] at missing
    exact obeys_throw (missing (.head _))

end Lower

/-! ### Analysis -/

/-- A fault of the grammar that analysis reports is in a hole of the tree. -/
theorem Program.mem_faults_of_analyse {p : Program} {d : Diagnostic} (h : p.analyse = .error d)
    (grammar : d.cause.isGrammar) : d ∈ p.faults := by
  unfold analyse at h
  rw [StateT.run] at h
  cases eq : Lower.program p .initial with
  | ok result =>
    rw [eq] at h
    cases h
  | error e =>
    rw [eq] at h
    cases h
    exact Lower.obeys_program p .initial _ eq grammar

end CZero
