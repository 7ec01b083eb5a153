import CZero.Proofs.Renaming.Parse
import CZero.Proofs.Renaming.Table

/-!
# Trees that are alike are lowered alike

Lowering appends the same code for trees that are alike, and both fail or none does. A step of lowering
that answers alike in contexts that are alike is `κ.Lowers`; one lemma for each function of lowering, by
recursion over the first tree.
-/

namespace CZero

namespace Likeness

variable (κ : Likeness)

/-- The contexts are alike. -/
structure Contexts (c c' : Context) : Prop where
  table : κ.Tables c.table c'.table
  current : c'.current = c.current
  main : c'.main = c.main

/-- Both steps fail alike, or both succeed alike. -/
inductive Outcomes {α β : Type} (R : α → β → Prop) :
    Except Diagnostic (α × Context) → Except Diagnostic (β × Context) → Prop
  | ok {a b c c'} : R a b → κ.Contexts c c' → Outcomes R (.ok (a, c)) (.ok (b, c'))
  | error {d d'} : κ.Faults d d' → Outcomes R (.error d) (.error d')

/-- The steps do the same in contexts that are alike, with results that are related. -/
def Lowers {α β : Type} (R : α → β → Prop) (x : Lower α) (y : Lower β) : Prop :=
  ∀ c c', κ.Contexts c c' → κ.Outcomes R (x c) (y c')

variable {κ} {α β γ δ : Type} {R : α → β → Prop} {Q : γ → δ → Prop}

theorem lowers_pure {a : α} {b : β} (h : R a b) : κ.Lowers R (pure a) (pure b) :=
  fun _ _ contexts => .ok h contexts

theorem lowers_throw {d d' : Diagnostic} (h : κ.Faults d d') : κ.Lowers R (throw d) (throw d') :=
  fun _ _ _ => .error h

theorem lowers_fail {c c' : Cause} {p p' : Position} (h : c.Renamed κ.name c') (place : κ.At p p') :
    κ.Lowers R (Lower.fail c p) (Lower.fail c' p') :=
  lowers_throw (.place h place)

/-- What would come after a fault does not matter. -/
theorem lowers_throw_bind {d d' : Diagnostic} {g : γ → Lower α} {g' : δ → Lower β} (h : κ.Faults d d') :
    κ.Lowers R (throw d >>= g) (throw d' >>= g') :=
  fun _ _ _ => .error h

theorem lowers_fail_bind {c c' : Cause} {p p' : Position} {g : γ → Lower α} {g' : δ → Lower β}
    (h : c.Renamed κ.name c') (place : κ.At p p') :
    κ.Lowers R (Lower.fail c p >>= g) (Lower.fail c' p' >>= g') :=
  lowers_throw_bind (.place h place)

theorem Lowers.bind {x : Lower α} {y : Lower β} {g : α → Lower γ} {g' : β → Lower δ} (h : κ.Lowers R x y)
    (next : ∀ a b, R a b → κ.Lowers Q (g a) (g' b)) : κ.Lowers Q (x >>= g) (y >>= g') := by
  intro c c' contexts
  have first := h c c' contexts
  rw [Lower.bind_apply, Lower.bind_apply]
  revert first
  rcases x c with d | ⟨a, c⟩ <;> rcases y c' with d' | ⟨b, c'⟩ <;> rintro (⟨r, contexts⟩ | fault)
  · exact .error fault
  · exact next a b r _ _ contexts

/-- After a step with the same result. -/
theorem Lowers.andThen {x y : Lower α} {g : α → Lower γ} {g' : α → Lower δ} (h : κ.Lowers Eq x y)
    (next : ∀ a, κ.Lowers Q (g a) (g' a)) : κ.Lowers Q (x >>= g) (y >>= g') :=
  h.bind fun a _ eq => eq ▸ next a

theorem Lowers.map {x : Lower α} {y : Lower β} (h : κ.Lowers R x y) {g : α → γ} {g' : β → δ}
    (next : ∀ a b, R a b → Q (g a) (g' b)) : κ.Lowers Q (g <$> x) (g' <$> y) := by
  rw [map_eq_pure_bind, map_eq_pure_bind]
  exact h.bind fun a b r => lowers_pure (next a b r)

theorem lowers_get : κ.Lowers κ.Contexts get get :=
  fun _ _ contexts => .ok contexts contexts

theorem lowers_modify {g g' : Context → Context} (h : ∀ c c', κ.Contexts c c' → κ.Contexts (g c) (g' c')) :
    κ.Lowers Eq (modify g) (modify g') :=
  fun c c' contexts => .ok rfl (h c c' contexts)

/-- A step that changes the table does what the change does. -/
theorem lowers_change {C : Cause → Cause → Prop} {p p' : Position}
    {g : Table → Except Cause (α × Table)} {g' : Table → Except Cause (β × Table)}
    (faults : ∀ c c', C c c' → κ.Faults ⟨c, p⟩ ⟨c', p'⟩)
    (h : ∀ t t', κ.Tables t t' → Replies C (fun x x' => R x.1 x'.1 ∧ κ.Tables x.2 x'.2) (g t) (g' t')) :
    κ.Lowers R (Lower.update p g) (Lower.update p' g') := by
  intro c c' contexts
  have changed := h _ _ contexts.table
  rw [Lower.update_apply, Lower.update_apply]
  revert changed
  rcases g c.table with cause | ⟨a, t⟩ <;> rcases g' c'.table with cause' | ⟨b, t'⟩ <;>
    rintro (⟨r, tables⟩ | fault)
  · exact .error (faults _ _ fault)
  · exact .ok r ⟨tables, contexts.current, contexts.main⟩

theorem lowers_update {p p' : Position} {g : Table → Except Cause (α × Table)}
    {g' : Table → Except Cause (β × Table)} (place : κ.At p p')
    (h : ∀ t t', κ.Tables t t' →
      Replies (Cause.Renamed κ.name) (fun x x' => R x.1 x'.1 ∧ κ.Tables x.2 x'.2) (g t) (g' t')) :
    κ.Lowers R (Lower.update p g) (Lower.update p' g') :=
  lowers_change (fun _ _ causes => .place causes place) h

theorem lowers_internal {g : Table → Except Cause (α × Table)} {g' : Table → Except Cause (β × Table)}
    (h : ∀ t t', κ.Tables t t' → Replies Same (fun x x' => R x.1 x'.1 ∧ κ.Tables x.2 x'.2) (g t) (g' t')) :
    κ.Lowers R (Lower.update .nowhere g) (Lower.update .nowhere g') := by
  refine lowers_change ?_ h
  rintro c _ ⟨rfl, internal⟩
  exact .internal internal

theorem lowers_ask {g : Table → Nat → Except Cause α} {g' : Table → Nat → Except Cause β}
    (h : ∀ t t' k, κ.Tables t t' → Replies Same R (g t k) (g' t' k)) :
    κ.Lowers R (Lower.ask g) (Lower.ask g') := by
  refine lowers_get.bind fun c c' contexts => lowers_internal fun t t' tables => ?_
  rw [contexts.current]
  exact (h t t' _ tables).bind fun a b r => .ok ⟨r, tables⟩

theorem lowers_edit {g : Table → Nat → Except Cause (α × Table)} {g' : Table → Nat → Except Cause (β × Table)}
    (h : ∀ t t' k, κ.Tables t t' → Replies Same (fun x x' => R x.1 x'.1 ∧ κ.Tables x.2 x'.2) (g t k) (g' t' k)) :
    κ.Lowers R (Lower.edit g) (Lower.edit g') := by
  refine lowers_get.bind fun c c' contexts => lowers_internal fun t t' tables => ?_
  rw [contexts.current]
  exact h t t' _ tables

theorem Replies.imp {C : Cause → Cause → Prop} {R' : α → β → Prop} {a : Except Cause α} {b : Except Cause β}
    (h : Replies C R a b) (le : ∀ a b, R a b → R' a b) : Replies C R' a b := by
  cases h with
  | ok r => exact .ok (le _ _ r)
  | error c => exact .error c

end Likeness

namespace Lower

open Likeness

variable {κ : Likeness}

/-! ### The current function -/

theorem alike_append (i : Instr) : κ.Lowers Eq (edit (·.append · i)) (edit (·.append · i)) :=
  lowers_edit fun _ _ k tables => (tables.append k i).imp fun _ _ ⟨eq, tables⟩ => ⟨eq.symm, tables⟩

theorem alike_emit (op : Opcode) : κ.Lowers Eq (emit op) (emit op) :=
  (alike_append _).andThen fun _ => lowers_pure rfl

theorem alike_emitWith (op : Opcode) (operand : Int64) :
    κ.Lowers Eq (emitWith op operand) (emitWith op operand) :=
  (alike_append _).andThen fun _ => lowers_pure rfl

theorem alike_negate (n : Nat) : κ.Lowers Eq (negate n) (negate n) := by
  induction n with
  | zero => exact lowers_pure rfl
  | succ n ih => exact (alike_emit _).andThen fun _ => ih

theorem alike_placeholder (op : Opcode) : κ.Lowers Eq (placeholder op) (placeholder op) :=
  lowers_edit fun _ _ k tables => (tables.placeholder k op).imp fun _ _ ⟨eq, tables⟩ => ⟨eq.symm, tables⟩

theorem alike_patch (site : Site) (operand : Int64) : κ.Lowers Eq (patch site operand) (patch site operand) :=
  lowers_internal fun _ _ tables => (tables.patch site operand).bind fun _ _ tables => .ok ⟨rfl, tables⟩

theorem alike_function : κ.Lowers Infos (ask (·.function ·)) (ask (·.function ·)) :=
  lowers_ask fun _ _ k tables => tables.function k

theorem alike_here : κ.Lowers Eq here here :=
  lowers_ask fun _ _ k tables => (tables.instrCount k).imp fun _ _ eq => eq.symm

theorem alike_lastOpcode? : κ.Lowers Eq (ask (·.lastOpcode? ·)) (ask (·.lastOpcode? ·)) :=
  lowers_ask fun _ _ k tables => (tables.lastOpcode? k).imp fun _ _ eq => eq.symm

theorem alike_addLocal (x x' : String) :
    κ.Lowers Eq (edit (·.addLocal · x)) (edit (·.addLocal · x')) :=
  lowers_edit fun _ _ k tables => (tables.addLocal k x x').imp fun _ _ ⟨eq, tables⟩ => ⟨eq.symm, tables⟩

/-! ### Names -/

theorem alike_declare {name name' : Ident} {s s' : Symbol} (h : κ.Idents name name') (hs : κ.Symbols s s')
    (named : s.meaning ≠ .literal) : κ.Lowers Eq (declare name s) (declare name' s') := by
  refine (lowers_update h.start (R := Eq) fun _ _ tables => ?_).andThen fun _ => lowers_pure rfl
  exact (tables.declare hs named).imp fun _ _ ⟨eq, tables⟩ => ⟨eq.symm, tables⟩

theorem alike_literal (text : String) : κ.Lowers Eq
    (update .nowhere fun t => .ok (t.declareLiteral text)) (update .nowhere fun t => .ok (t.declareLiteral text)) :=
  lowers_internal fun _ _ tables =>
    have ⟨slot, tables⟩ := tables.declareLiteral text
    .ok ⟨slot.symm, tables⟩

theorem alike_markInit (id : Nat) : κ.Lowers Eq
    (update .nowhere fun t => .ok ((), t.markInit id)) (update .nowhere fun t => .ok ((), t.markInit id)) :=
  lowers_internal fun _ _ tables => .ok ⟨rfl, tables.markInit id⟩

/-- A name stands for the same symbol in both. -/
theorem alike_resolve {name name' : Ident} (h : κ.Idents name name') :
    κ.Lowers (fun x x' => x'.1 = x.1 ∧ κ.Symbols x.2 x'.2) (resolve name) (resolve name') := by
  refine lowers_update h.start fun t t' tables => ?_
  rw [h.name]
  refine (tables.lookup name.name).bind ?_
  rintro _ id rfl
  have symbols := tables.get? id
  revert symbols
  rcases t.get? id with - | s <;> rcases t'.get? id with - | s' <;> rintro (s | _)
  · exact .error (.notDeclared _)
  · exact .ok ⟨⟨rfl, s⟩, tables⟩

/-- Only a reserved name becomes a reserved name. -/
theorem name_eq_iff {x y : String} (mem : y ∈ reservedNames) : κ.name x = y ↔ x = y := by
  constructor
  · intro eq
    exact κ.injective (eq.trans (κ.reserved y mem).symm)
  · rintro rfl
    exact κ.reserved _ mem

theorem ofName?_name (x : String) : Ty.ofName? (κ.name x) = Ty.ofName? x := by
  have int := name_eq_iff (κ := κ) (x := x) (y := "int") (by decide)
  have double := name_eq_iff (κ := κ) (x := x) (y := "double") (by decide)
  have void := name_eq_iff (κ := κ) (x := x) (y := "void") (by decide)
  simp only [Ty.ofName?, int, double, void]

theorem alike_valueType {name name' type type' : Ident} (h : κ.Idents name name') (ht : κ.Idents type type') :
    κ.Lowers Eq (valueType name type) (valueType name' type') := by
  rw [valueType, valueType, ht.name, ofName?_name]
  split
  · split
    · exact lowers_pure rfl
    · exact lowers_fail .invalidAssignment h.start
  · exact lowers_fail .invalidAssignment h.start

theorem alike_resultType {type type' : Ident} (h : κ.Idents type type') :
    κ.Lowers Eq (resultType type) (resultType type') := by
  rw [resultType, resultType, h.name, ofName?_name]
  split
  · exact lowers_pure rfl
  · exact lowers_fail (.unknownType _) h.start

/-! ### Expressions -/

theorem alike_address {name name' : Ident} (h : κ.Idents name name') (slot : Slot) :
    κ.Lowers Eq (address name slot) (address name' slot) := by
  cases slot with
  | arg i =>
    refine alike_function.bind fun f f' info => ?_
    rw [FnInfo.returnSlots, FnInfo.returnSlots, info.ret]
    exact alike_emitWith _ _
  | loc i => exact alike_emitWith _ _
  | glob i => exact alike_emitWith _ _
  | fn i =>
    rw [address, address, h.name]
    exact lowers_fail (.notDeclared _) h.start

theorem alike_callee {name name' : Ident} (h : κ.Idents name name') :
    κ.Lowers Infos (callee name) (callee name') := by
  refine (alike_resolve h).bind ?_
  rintro ⟨id, s⟩ ⟨id', s'⟩ ⟨-, symbols⟩
  have info := symbols.function?
  dsimp only
  revert info
  rcases s.function? with - | f <;> rcases s'.function? with - | f' <;> rintro (info | _)
  · rw [h.name]
    exact lowers_fail (.notDeclared _) h.start
  · exact lowers_pure info

theorem alike_callInstr (index : Nat) : κ.Lowers Eq (callInstr index) (callInstr index) := by
  rw [callInstr]
  split <;> exact alike_emitWith _ _

theorem alike_target {name name' : Ident} (h : κ.Idents name name') :
    κ.Lowers Eq (target name) (target name') := by
  refine (alike_resolve h).bind ?_
  rintro ⟨id, s⟩ ⟨id', s'⟩ ⟨eq, symbols⟩
  obtain rfl : id' = id := eq
  dsimp only
  rw [symbols.isIntVariable, symbols.isConst, symbols.slot, h.name]
  split
  · exact lowers_fail_bind .invalidAssignment h.start
  · split
    · exact lowers_fail_bind (.assignToConstant _) h.start
    · exact lowers_pure rfl

theorem alike_storable {name name' : Ident} (h : κ.Idents name name') (ty : Ty) :
    κ.Lowers Eq (storable name ty) (storable name' ty) := by
  rw [storable, storable]
  split
  · exact lowers_fail .invalidAssignment h.start
  · exact lowers_pure rfl

mutual

theorem alike_expr : (e : Expr) → {e' : Expr} → κ.Exprs e e' → κ.Lowers Eq (expr e) (expr e')
  | .hole _, _, .hole d => by
    rw [expr, expr]
    exact lowers_throw d
  | .cutOff e _, _, .cutOff he d => by
    rw [expr, expr]
    exact (alike_expr e he).andThen fun _ => lowers_throw d
  | .uint _, _, .uint _ | .char _, _, .char _ => by
    rw [expr]
    exact (alike_emitWith _ _).andThen fun _ => lowers_pure rfl
  | .double _, _, .double _ => by
    rw [expr]
    exact lowers_pure rfl
  | .string _, _, .string text => by
    rw [expr]
    refine (alike_literal text).andThen fun _ => ?_
    exact (alike_emitWith _ _).andThen fun _ => lowers_pure rfl
  | .load _, _, .load x => by
    rw [expr, expr]
    refine (alike_resolve x).bind ?_
    rintro ⟨_, s⟩ ⟨_, s'⟩ ⟨-, symbols⟩
    dsimp only
    rw [symbols.slot, symbols.ty]
    refine (alike_address x _).andThen fun _ => ?_
    exact (alike_emit _).andThen fun _ => lowers_pure rfl
  | .assign _ e, _, .assign x he => by
    rw [expr, expr]
    refine (alike_target x).andThen fun ⟨id, slot⟩ => (alike_address x _).andThen fun _ => ?_
    refine (alike_expr e he).andThen fun ty => (alike_storable x ty).andThen fun _ => ?_
    exact (alike_emit _).andThen fun _ => (alike_markInit id).andThen fun _ => lowers_pure rfl
  | .call _ as, _, .call x has => by
    rw [expr, expr]
    refine (alike_callee x).bind fun f f' info => ?_
    rw [FnInfo.returnSlots, FnInfo.returnSlots, info.ret, info.index]
    refine (alike_emitWith _ _).andThen fun _ => (alike_args as has).andThen fun _ => ?_
    exact (alike_callInstr _).andThen fun _ => lowers_pure rfl
  | .paren e, _, .paren he => by
    rw [expr, expr]
    exact alike_expr e he
  | .neg signs e, _, .neg _ he => by
    rw [expr, expr]
    exact (alike_expr e he).andThen fun _ => (alike_negate _).andThen fun _ => lowers_pure rfl
  | .cast e _, _, .cast he type => by
    rw [expr, expr]
    exact (alike_expr e he).andThen fun _ => (alike_resultType type).andThen fun _ => lowers_pure rfl
  | .arith op lhs rhs, _, .arith _ hl hr => by
    rw [expr, expr]
    refine (alike_expr lhs hl).andThen fun _ => (alike_expr rhs hr).andThen fun _ => ?_
    exact (alike_emit _).andThen fun _ => lowers_pure rfl
  | .compare op lhs rhs, _, .compare _ hl hr => by
    rw [expr, expr]
    refine (alike_expr lhs hl).andThen fun _ => (alike_expr rhs hr).andThen fun _ => ?_
    refine (alike_emit _).andThen fun _ => ?_
    have branch (op : Opcode) (ty : Ty) : κ.Lowers Eq (do emitWith op 1; return ty : Lower Ty)
        (do emitWith op 1; return ty : Lower Ty) :=
      (alike_emitWith _ _).andThen fun _ => lowers_pure rfl
    dsimp only
    split
    · exact (alike_emit _).andThen fun _ => branch _ _
    · exact branch _ _

theorem alike_args : (as : Args) → {as' : Args} → κ.Arglists as as' → κ.Lowers Eq (args as) (args as')
  | .close, _, .close => by
    rw [args]
    exact lowers_pure rfl
  | .cutOff _, _, .cutOff d => by
    rw [args, args]
    exact lowers_throw d
  | .arg e rest, _, .arg he hrest => by
    rw [args, args]
    exact (alike_expr e he).andThen fun _ => alike_args rest hrest

end

theorem alike_condition {e e' : Expr} (h : κ.Exprs e e') : κ.Lowers Eq (condition e) (condition e') := by
  refine (alike_expr e h).andThen fun _ => alike_lastOpcode?.andThen fun last => ?_
  split
  · exact alike_emitWith _ _
  · exact lowers_pure rfl

/-! ### Declarations and statements -/

/-- One of two steps, and then the same. -/
theorem alike_ite_bind {α β : Type} {p : Prop} [Decidable p] {x x' y y' : Lower α} {g g' : α → Lower β}
    (hx : κ.Lowers Eq x x') (hy : κ.Lowers Eq y y') (hg : ∀ a, κ.Lowers Eq (g a) (g' a)) :
    κ.Lowers Eq (if p then x >>= g else y >>= g) (if p then x' >>= g' else y' >>= g') := by
  split
  · exact hx.andThen hg
  · exact hy.andThen hg

/-- A step that is taken unless a semicolon is missing. -/
theorem alike_unless_cutOff {cutOff cutOff' : Option Diagnostic} {x x' : Lower Unit} :
    Option.Rel κ.Faults cutOff cutOff' → κ.Lowers Eq x x' → κ.Lowers Eq
      (match cutOff with
        | some fault => throw fault >>= fun _ : PUnit => x
        | _ => x : Lower Unit)
      (match cutOff' with
        | some fault => throw fault >>= fun _ : PUnit => x'
        | _ => x' : Lower Unit) := by
  intro h hx
  cases h with
  | none => exact hx
  | some d => exact lowers_throw_bind d

/-- The end of a declaration: its name counts from now on, and its slot is patched in. -/
theorem alike_complete {name name' : Ident} {s s' : Nat → Symbol} (site : Option Site)
    (h : κ.Idents name name') (hs : ∀ n, κ.Symbols (s n) (s' n)) (named : ∀ n, (s n).meaning ≠ .literal) :
    κ.Lowers Eq
      (do
        let c ← get
        declare name (s c.table.globalCount)
        match site with
        | some site => patch site (Int64.ofNat c.table.globalCount)
        | _ => pure () : Lower Unit)
      (do
        let c ← get
        declare name' (s' c.table.globalCount)
        match site with
        | some site => patch site (Int64.ofNat c.table.globalCount)
        | _ => pure () : Lower Unit) := by
  refine lowers_get.bind fun c c' contexts => ?_
  rw [contexts.table.globalCount]
  refine (alike_declare h (hs _) (named _)).andThen fun _ => ?_
  split
  · exact alike_patch _ _
  · exact lowers_pure rfl

theorem alike_store {name name' : Ident} {e e' : Expr} {x x' : Lower Unit} (h : κ.Idents name name')
    (he : κ.Exprs e e') (hx : κ.Lowers Eq x x') : κ.Lowers Eq
      (do
        let ty ← expr e
        storable name ty
        emit .store64
        x : Lower Unit)
      (do
        let ty ← expr e'
        storable name' ty
        emit .store64
        x' : Lower Unit) :=
  (alike_expr e he).andThen fun _ => (alike_storable h _).andThen fun _ => (alike_emit _).andThen fun _ => hx

theorem alike_decl {d d' : Decl} (h : κ.Decls d d') : κ.Lowers Eq (decl d) (decl d') := by
  obtain ⟨isConst, name, type, init, cutOff⟩ := d
  obtain ⟨isConst', name', type', init', cutOff'⟩ := d'
  obtain ⟨same, hname, htype, hinit, hcut⟩ := h
  obtain rfl : isConst' = isConst := same
  refine (alike_valueType hname htype).andThen fun ty => lowers_get.bind fun c c' contexts => ?_
  have variable_alike (slot : Slot) (isInit : Bool) :
      κ.Symbols { Symbol.ofVariable name.name ty c.table.layer isConst' slot with isInit }
        { Symbol.ofVariable name'.name ty c.table.layer isConst' slot with isInit } :=
    ⟨hname.name, .value, rfl, rfl, rfl, rfl, rfl⟩
  have complete (slot : Nat → Slot) (site : Option Site) (isInit : Bool) := alike_unless_cutOff hcut
    (alike_complete site hname (fun n => variable_alike (slot n) isInit) fun _ => Meaning.noConfusion)
  rw [contexts.table.layer]
  refine alike_ite_bind (lowers_pure rfl) ((alike_addLocal _ _).map fun _ _ => congrArg some) fun reserved => ?_
  cases hinit with
  | none =>
    refine (lowers_pure rfl).andThen fun site => ?_
    cases reserved with
    | none => exact complete .glob site false
    | some index => exact complete (fun _ => .loc index) site false
  | some he =>
    cases reserved with
    | none =>
      refine ((alike_placeholder _).map fun _ _ => congrArg some).andThen fun site => ?_
      refine alike_store hname he ((lowers_pure rfl).andThen fun site => ?_)
      exact complete .glob site true
    | some index =>
      refine (alike_emitWith _ _).andThen fun _ => (lowers_pure rfl).andThen fun site => ?_
      refine alike_store hname he ((lowers_pure rfl).andThen fun site => ?_)
      exact complete (fun _ => .loc index) site true

theorem alike_ret {p p' : Position} {value value' : Option Expr} (h : κ.At p p')
    (hv : Option.Rel κ.Exprs value value') : κ.Lowers Eq (ret p value) (ret p' value') := by
  refine alike_function.bind fun f f' info => ?_
  rw [info.ret]
  cases hv with
  | none =>
    dsimp only
    split
    · exact lowers_fail_bind .returnTypeMismatch h
    · exact alike_emit _
  | some e =>
    refine (alike_emitWith _ _).andThen fun _ => (alike_expr _ e).andThen fun found => ?_
    dsimp only
    split
    · exact lowers_fail_bind .returnTypeMismatch h
    · exact (alike_emit _).andThen fun _ => alike_emit _

mutual

theorem alike_stmt : (s : Stmt) → {s' : Stmt} → κ.Stmts s s' → κ.Lowers Eq (stmt s) (stmt s')
  | .decl _, _, .decl d => by
    rw [stmt, stmt]
    exact alike_decl d
  | .cond c, _, .cond hc => by
    rw [stmt, stmt]
    exact alike_ifChain c hc
  | .loop e body, _, .loop he hb => by
    rw [stmt, stmt]
    refine (alike_emitWith _ _).andThen fun _ => alike_here.andThen fun again => ?_
    refine (alike_condition he).andThen fun _ => (alike_placeholder _).andThen fun leave => ?_
    refine (alike_block body hb).andThen fun _ => alike_here.andThen fun back => ?_
    exact (alike_emitWith _ _).andThen fun _ => alike_patch _ _
  | .ret _ _, _, .ret p value => by
    rw [stmt, stmt]
    exact alike_ret p value
  | .block b, _, .block hb => by
    rw [stmt, stmt]
    exact alike_block b hb
  | .empty, _, .empty => by
    rw [stmt]
    exact lowers_pure rfl
  | .expr e, _, .expr he => by
    rw [stmt, stmt]
    exact (alike_expr e he).andThen fun _ => lowers_pure rfl

theorem alike_block : (b : Block) → {b' : Block} → κ.Blocks b b' → κ.Lowers Eq (block b) (block b')
  | .close, _, .close => by
    rw [block]
    exact lowers_pure rfl
  | .cutOff _, _, .cutOff d => by
    rw [block, block]
    exact lowers_throw d
  | .stmt s rest, _, .stmt hs hrest => by
    rw [block, block]
    exact (alike_stmt s hs).andThen fun _ => alike_block rest hrest

theorem alike_ifChain : (c : IfChain) → {c' : IfChain} → κ.Chains c c' → κ.Lowers Eq (ifChain c) (ifChain c')
  | .mk e body otherwise, _, .mk he hb ho => by
    rw [ifChain, ifChain]
    refine (alike_condition he).andThen fun _ => (alike_placeholder _).andThen fun skip => ?_
    refine (alike_block body hb).andThen fun _ => (alike_elsePart otherwise ho).andThen fun jump => ?_
    refine alike_here.andThen fun last => ?_
    cases jump with
    | none => exact (alike_patch _ _).andThen fun _ => alike_emitWith _ _
    | some jump =>
      refine (alike_patch _ _).andThen fun _ => ?_
      exact (alike_patch _ _).andThen fun _ => alike_emitWith _ _

theorem alike_elsePart : (o : Else) → {o' : Else} → κ.Elses o o' → κ.Lowers Eq (elsePart o) (elsePart o')
  | .absent, _, .absent => by
    rw [elsePart]
    exact lowers_pure rfl
  | .block b, _, .block hb => by
    rw [elsePart, elsePart]
    exact (alike_placeholder _).andThen fun _ => (alike_block b hb).andThen fun _ => lowers_pure rfl
  | .chain c, _, .chain hc => by
    rw [elsePart, elsePart]
    exact (alike_placeholder _).andThen fun _ => (alike_ifChain c hc).andThen fun _ => lowers_pure rfl

end

/-! ### Programs -/

theorem alike_paramTypes {ps ps' : List Param} (h : List.Forall₂ κ.Params ps ps') :
    κ.Lowers Eq (paramTypes ps) (paramTypes ps') := by
  induction h with
  | nil => exact lowers_pure rfl
  | cons p _ ih =>
    exact (alike_valueType p.name p.type).andThen fun _ => ih.andThen fun _ => lowers_pure rfl

theorem alike_declareParams (layer : Nat) {ps ps' : List Param} (h : List.Forall₂ κ.Params ps ps')
    (types : List Ty) (index : Nat) :
    κ.Lowers Eq (declareParams layer index (ps.zip types)) (declareParams layer index (ps'.zip types)) := by
  induction h generalizing types index with
  | nil => exact lowers_pure rfl
  | @cons p p' _ _ h _ ih =>
    cases types with
    | nil => exact lowers_pure rfl
    | cons ty types =>
      have symbols : κ.Symbols
          { Symbol.ofVariable p.name.name ty layer p.isConst (.arg index) with isInit := true }
          { Symbol.ofVariable p'.name.name ty layer p'.isConst (.arg index) with isInit := true } :=
        ⟨h.name.name, .value, rfl, rfl, h.isConst, rfl, rfl⟩
      exact (alike_declare h.name symbols nofun).andThen fun _ => ih types (index + 1)

/-- Functions that take parameters of the same types are declared alike. -/
theorem symbols_function {name name' : Ident} (h : κ.Idents name name') {ps ps' : List Param}
    (hps : List.Forall₂ κ.Params ps ps') (index : Nat) (ret : Ty) (types : List Ty) :
    κ.Symbols (.ofFunction name.name (.declared index ret ((ps.map (·.name.name)).zip types)))
      (.ofFunction name'.name (.declared index ret ((ps'.map (·.name.name)).zip types))) := by
  have same : ((ps'.map (·.name.name)).zip types).map (·.2) = ((ps.map (·.name.name)).zip types).map (·.2) := by
    induction hps generalizing types with
    | nil => rfl
    | cons _ _ ih =>
      cases types with
      | nil => rfl
      | cons ty types => exact congrArg (ty :: ·) (ih types)
  refine ⟨h.name, .function ⟨rfl, rfl, same, rfl, rfl⟩, ?_, rfl, rfl, rfl, rfl⟩
  exact congrArg (Ty.func · ret) same

theorem alike_fnItem {f f' : FnItem} (h : κ.Fns f f') : κ.Lowers Eq (fnItem f) (fnItem f') := by
  obtain ⟨name, params, type, body⟩ := f
  obtain ⟨name', params', type', body'⟩ := f'
  obtain ⟨hname, hparams, htype, hbody⟩ := h
  have isMain : name'.name = mainName ↔ name.name = mainName := by
    rw [hname.name]
    exact name_eq_iff (by decide)
  refine (alike_paramTypes hparams).andThen fun types => ?_
  cases htype with
  | error d => exact lowers_throw_bind d
  | ok type =>
    refine (alike_resultType type).andThen fun ret => lowers_get.bind fun c c' contexts => ?_
    rw [contexts.table.functionCount]
    refine (alike_declare hname (symbols_function hname hparams _ _ _) nofun).andThen fun _ => ?_
    refine Lowers.andThen (lowers_modify fun c c' contexts => ?_) fun _ => lowers_get.bind fun c c' contexts => ?_
    · refine ⟨contexts.table.openScope, contexts.current, ?_⟩
      simp only [isMain, contexts.main]
    rw [contexts.table.layer]
    refine (alike_declareParams _ hparams types 0).andThen fun _ => ?_
    refine Lowers.andThen (lowers_modify fun c c' contexts => ⟨contexts.table, rfl, contexts.main⟩) fun _ => ?_
    refine (alike_block body hbody).andThen fun _ => ?_
    have finish (l : Nat) : κ.Lowers Eq (modify fun c => { c with
        table := (c.table.closeScope l).2
        current := entryIndex }) (modify fun c => { c with
        table := (c.table.closeScope l).2
        current := entryIndex }) :=
      lowers_modify fun c c' contexts => ⟨contexts.table.closeScope _, rfl, contexts.main⟩
    dsimp only
    split
    · exact (alike_emit _).andThen fun _ => finish _
    · exact finish _

theorem alike_items {is is' : List Item} (h : List.Forall₂ κ.Items is is') :
    κ.Lowers Eq (items is) (items is') := by
  induction h with
  | nil => exact lowers_pure rfl
  | cons i _ ih =>
    cases i with
    | fn f => exact (alike_fnItem f).andThen fun _ => ih
    | decl d => exact (alike_decl d).andThen fun _ => ih

theorem alike_callMain : κ.Lowers Eq callMain callMain := by
  refine lowers_get.bind fun c c' contexts => ?_
  rw [contexts.main]
  split
  · refine (lowers_internal (R := Infos) fun t t' tables => ?_).bind fun f f' info => ?_
    · exact (tables.function _).bind fun _ _ info => .ok ⟨info, tables⟩
    · rw [FnInfo.returnSlots, FnInfo.returnSlots, info.ret]
      exact (alike_emitWith _ _).andThen fun _ => alike_emitWith _ _
  · exact lowers_pure rfl

theorem alike_program {p p' : Program} (h : κ.Programs p p') : κ.Lowers κ.Ends (program p) (program p') := by
  obtain ⟨is, finish⟩ := p
  obtain ⟨is', finish'⟩ := p'
  obtain ⟨items, finish⟩ := h
  refine (alike_items items).andThen fun _ => ?_
  cases finish with
  | error d => exact lowers_throw d
  | ok ends => exact alike_callMain.andThen fun _ => lowers_pure ends

end Lower

/-! ### Analysis -/

namespace Likeness

variable {κ : Likeness}

/-- The analyses are alike. -/
structure Analyses (κ : Likeness) (a a' : Analysis) : Prop where
  table : κ.Tables a.table a'.table
  main : a'.main = a.main
  finish : κ.Ends a.finish a'.finish

/-- Programs that are alike are analysed alike. -/
theorem Programs.analyse {p p' : Program} (h : κ.Programs p p') :
    κ.Results κ.Analyses p.analyse p'.analyse := by
  have lowered := Lower.alike_program h .initial .initial ⟨tables_initial, rfl, rfl⟩
  unfold Program.analyse StateT.run
  revert lowered
  generalize Lower.program p Context.initial = x
  generalize Lower.program p' Context.initial = y
  rintro (⟨ends, contexts⟩ | fault)
  · exact .ok ⟨contexts.table, contexts.main, ends⟩
  · exact .error fault

end Likeness

end CZero
