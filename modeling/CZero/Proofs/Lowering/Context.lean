import CZero.Proofs.Symbol.View

/-!
# Where lowering stands

Lowering changes a table and appends to the function it is in. Two notions say what it does.

`x.Meets c P Q`: started in context `c`, step `x` succeeds exactly if `P` holds, and then ends as `Q`
says. A chain of steps is taken apart by `Meets.bind`, with the same `P` for all that is left to do.

`c.At w f p`: the table of `c` shows what generation knows at point `p`, the current function is `f`,
and `w` are the functions around it, which lowering does not touch.
-/

namespace CZero

namespace Lower

/-- A step of lowering succeeds exactly if `P` holds, and then `Q` holds of its result. -/
def Meets {α : Type} (x : Lower α) (c : Context) (P : Prop) (Q : α → Context → Prop) : Prop :=
  match x c with
  | .ok (a, c') => P ∧ Q a c'
  | .error _ => ¬P

section Meets

variable {α β : Type} {c : Context} {P R : Prop} {Q : α → Context → Prop}

theorem meets_pure {a : α} (h : P) (ha : Q a c) : Meets (pure a) c P Q :=
  ⟨h, ha⟩

theorem meets_throw {d : Diagnostic} (h : ¬P) : Meets (throw d : Lower α) c P Q :=
  h

theorem bind_apply (x : Lower α) (g : α → Lower β) (c : Context) : (x >>= g) c = match x c with
    | .ok (a, c') => g a c'
    | .error d => .error d := by
  change Except.bind _ _ = _
  cases x c <;> rfl

theorem Meets.bind {x : Lower α} {g : α → Lower β} {Q' : β → Context → Prop} (hx : x.Meets c P Q)
    (need : R → P) (next : ∀ a c', P → Q a c' → (g a).Meets c' R Q') : (x >>= g).Meets c R Q' := by
  unfold Meets at hx ⊢
  rw [bind_apply]
  split at hx
  · exact next _ _ hx.1 hx.2
  · exact mt need hx

/-- After a step that always succeeds. -/
theorem Meets.always {x : Lower α} {g : α → Lower β} {Q' : β → Context → Prop} (hx : x.Meets c True Q)
    (next : ∀ a c', Q a c' → (g a).Meets c' R Q') : (x >>= g).Meets c R Q' :=
  hx.bind (fun _ => trivial) fun a c' _ => next a c'

theorem Meets.imp {x : Lower α} {Q' : α → Context → Prop} (hx : x.Meets c P Q) (legal : P ↔ R)
    (h : ∀ a c', P → Q a c' → Q' a c') : x.Meets c R Q' := by
  unfold Meets at hx ⊢
  split at hx
  · exact ⟨legal.1 hx.1, h _ _ hx.1 hx.2⟩
  · exact mt legal.2 hx

theorem update_apply (position : Position) (f : Table → Except Cause (α × Table)) (c : Context) :
    update position f c = match f c.table with
      | .ok (a, table) => .ok (a, { c with table })
      | .error cause => .error ⟨cause, position⟩ := by
  simp only [update, bind, StateT.bind, Except.bind, get, getThe, MonadStateOf.get, StateT.get, pure,
    Except.pure]
  cases f c.table <;> rfl

/-- A step that changes the table does what the change does. -/
theorem meets_update {position : Position} {f : Table → Except Cause (α × Table)} (h : match f c.table with
      | .ok (a, table) => P ∧ Q a { c with table }
      | .error _ => ¬P) : (update position f).Meets c P Q := by
  unfold Meets
  rw [update_apply]
  split at h <;> exact h

theorem meets_get {g : Context → Lower β} {Q' : β → Context → Prop} (h : (g c).Meets c R Q') :
    (get >>= g).Meets c R Q' :=
  h

theorem meets_modify {f : Context → Context} {g : Unit → Lower β} {Q' : β → Context → Prop}
    (h : (g ()).Meets (f c) R Q') : (modify f >>= g).Meets c R Q' :=
  h

theorem meets_ask {f : Table → Nat → Except Cause α} (h : match f c.table c.current with
      | .ok a => P ∧ Q a c
      | .error _ => ¬P) : (ask f).Meets c P Q := by
  refine meets_get (meets_update ?_)
  generalize f c.table c.current = result at h ⊢
  cases result <;> exact h

theorem meets_edit {f : Table → Nat → Except Cause (α × Table)} (h : match f c.table c.current with
      | .ok (a, table) => P ∧ Q a { c with table }
      | .error _ => ¬P) : (edit f).Meets c P Q :=
  meets_get (meets_update h)

end Meets

end Lower

/-! ### The current function -/

/-- The functions around the one that code is appended to, and the one named `main`. -/
structure Surroundings where
  before : List FnInfo
  after : List FnInfo
  main : Option Nat

/-- Lowering appends to function `f` at point `p`. -/
structure Context.At (w : Surroundings) (c : Context) (f : FnInfo) (p : Point) : Prop where
  table : c.table.Shows ⟨p.env.toNames, p.data, w.before ++ f :: w.after⟩
  current : c.current = w.before.length
  main : c.main = w.main
  ret : f.ret = p.env.ret
  locals : f.locals = p.locals
  last : f.body.getLast?.map (·.opcode) = p.last

/-- Adds code that ends at point `q`. -/
def FnInfo.write (f : FnInfo) (q : Point) (code : List Instr) : FnInfo :=
  { f with locals := q.locals, body := f.body ++ code }

/-- Lowering has appended some code and stands behind it. -/
def Context.Wrote (w : Surroundings) (c : Context) (f : FnInfo) (code : List Instr) (q : Point) :
    Prop :=
  c.At w (f.write q code) q

@[simp] theorem FnInfo.write_write (f : FnInfo) (q r : Point) (a b : List Instr) :
    (f.write q a).write r b = f.write r (a ++ b) := by
  simp [FnInfo.write]

@[simp] theorem FnInfo.length_body_write (f : FnInfo) (q : Point) (a : List Instr) :
    (f.write q a).body.length = f.body.length + a.length :=
  List.length_append

/-- Code behind code. -/
theorem Context.Wrote.trans {w : Surroundings} {c : Context} {f : FnInfo} {q r : Point}
    {a b : List Instr} (h : c.Wrote w (f.write q a) b r) : c.Wrote w f (a ++ b) r := by
  rwa [Context.Wrote, FnInfo.write_write] at h

theorem FnInfo.write_nil {f : FnInfo} {p : Point} (h : f.locals = p.locals) : f.write p [] = f := by
  simp [FnInfo.write, ← h]

/-- No code changes nothing. -/
theorem Context.At.wrote {w : Surroundings} {c : Context} {f : FnInfo} {p : Point} (h : c.At w f p) :
    c.Wrote w f [] p := by
  rw [Context.Wrote, FnInfo.write_nil (p := p) h.locals]
  exact h

namespace Point

@[simp] theorem emit_nil (p : Point) : p.emit [] = p := rfl

@[simp] theorem emit_emit (p : Point) (a b : List Instr) : (p.emit a).emit b = p.emit (a ++ b) := by
  simp only [emit, List.getLast?_append, Option.map_or, Option.or_assoc]

/-- A missing operand does not matter to what follows. -/
theorem emit_plain_cons (p : Point) (op : Opcode) (v : Int64) (a : List Instr) :
    p.emit (.plain op :: a) = p.emit (.withOperand op v :: a) := by
  cases a <;> simp [emit, Instr.plain, Instr.withOperand]

@[simp] theorem literals_nil (p : Point) : p.literals [] = p := by
  simp [literals]

@[simp] theorem literals_literals (p : Point) (a b : List String) :
    (p.literals a).literals b = p.literals (a ++ b) := by
  simp [literals]

@[simp] theorem emit_literals (p : Point) (a : List Instr) (b : List String) :
    (p.emit a).literals b = (p.literals b).emit a := rfl

@[simp] theorem emit_jumpBy (p : Point) (n : Int) : p.emit [jumpBy n] = p.jump := rfl
@[simp] theorem emit_br (p : Point) : p.emit [.plain .br] = p.jump := rfl

@[simp] theorem env_emit (p : Point) (a : List Instr) : (p.emit a).env = p.env := rfl
@[simp] theorem env_literals (p : Point) (a : List String) : (p.literals a).env = p.env := rfl
@[simp] theorem data_emit (p : Point) (a : List Instr) : (p.emit a).data = p.data := rfl
@[simp] theorem locals_emit (p : Point) (a : List Instr) : (p.emit a).locals = p.locals := rfl
@[simp] theorem locals_literals (p : Point) (a : List String) : (p.literals a).locals = p.locals := rfl

@[simp] theorem length_data_literals (p : Point) (a : List String) :
    (p.literals a).data.length = p.data.length + a.length := by
  simp [literals]

end Point

namespace Context.At

variable {w : Surroundings} {c : Context} {f : FnInfo} {p : Point}

theorem getElem?_current (h : c.At w f p) : (w.before ++ f :: w.after)[c.current]? = some f := by
  rw [h.current, List.getElem?_append_right (Nat.le_refl _), Nat.sub_self, List.getElem?_cons_zero]

theorem function (h : c.At w f p) : c.table.function c.current = .ok f := by
  rw [h.table.function, h.getElem?_current]

theorem modify_append {α : Type} (as : List α) (a : α) (bs : List α) (g : α → α) :
    (as ++ a :: bs).modify as.length g = as ++ g a :: bs := by
  induction as with
  | nil => rfl
  | cons x xs ih => simp [ih]

/-- A change of the current function that keeps its number and result type. -/
theorem modify (h : c.At w f p) {g : FnInfo → FnInfo} (index : ∀ f, (g f).index = f.index)
    (ret : ∀ f, (g f).ret = f.ret) {q : Point} (env : q.env = p.env) (data : q.data = p.data)
    (locals : (g f).locals = q.locals) (last : (g f).body.getLast?.map (·.opcode) = q.last) :
    ∃ t, c.table.modifyFunction c.current g = .ok t ∧ At w { c with table := t } (g f) q := by
  obtain ⟨t, run, shows⟩ := h.table.modifyFunction h.getElem?_current index ret
  refine ⟨t, run, ?_, h.current, h.main, ?_, locals, last⟩
  · rw [h.current, modify_append] at shows
    rwa [env, data]
  · rw [ret, h.ret, env]

theorem append (h : c.At w f p) (i : Instr) :
    ∃ t, c.table.append c.current i = .ok (f.body.length, t) ∧
      Wrote w { c with table := t } f [i] (p.emit [i]) := by
  have eq : f.append i = f.write (p.emit [i]) [i] := by
    simp [FnInfo.append, FnInfo.write, h.locals]
  obtain ⟨t, run, at'⟩ := h.modify (g := (·.append i)) (q := p.emit [i]) (fun _ => rfl) (fun _ => rfl) rfl rfl
    h.locals (by simp [FnInfo.append, Point.emit])
  refine ⟨t, ?_, by rwa [Wrote, ← eq]⟩
  simp [Table.append, h.function, run, bind, Except.bind, pure, Except.pure]

theorem getLast?_setOperand (f : FnInfo) (k : Nat) (v : Int64) :
    (f.setOperand k v).body.getLast?.map (·.opcode) = f.body.getLast?.map (·.opcode) := by
  have opcodes : (f.setOperand k v).body.map (·.opcode) = f.body.map (·.opcode) := by
    refine List.ext_getElem (by simp [FnInfo.setOperand]) fun i _ _ => ?_
    simp only [FnInfo.setOperand, List.getElem_map, List.getElem_modify]
    split <;> rfl
  rw [← List.getLast?_map, ← List.getLast?_map, opcodes]

theorem patch (h : c.At w f p) {k : Nat} (hk : k < f.body.length) (v : Int64) :
    ∃ t, c.table.patch ⟨w.before.length, k⟩ v = .ok t ∧
      At w { c with table := t } (f.setOperand k v) p := by
  obtain ⟨t, run, at'⟩ := h.modify (g := (·.setOperand k v)) (q := p) (fun _ => rfl) (fun _ => rfl) rfl rfl
    h.locals (by rw [getLast?_setOperand, h.last])
  refine ⟨t, ?_, at'⟩
  rw [← h.current]
  simp [Table.patch, h.function, hk, run, bind, Except.bind]

/-- The place of the operand is the one that is missing. -/
theorem setOperand_write (f : FnInfo) (q : Point) (a b : List Instr) (op : Opcode) (v : Int64) :
    (f.write q (a ++ .plain op :: b)).setOperand (f.body.length + a.length) v
      = f.write q (a ++ .withOperand op v :: b) := by
  have := modify_append (f.body ++ a) (.plain op) b fun i => { i with operand := some v }
  rw [List.length_append, List.append_assoc, List.append_assoc] at this
  simp only [FnInfo.setOperand, FnInfo.write, this]
  rfl

end Context.At

namespace Lower

variable {w : Surroundings} {c : Context} {f : FnInfo} {p : Point}

/-! ### Instructions -/

theorem meets_emitWith (h : c.At w f p) (op : Opcode) (v : Int64) :
    (emitWith op v).Meets c True fun _ c' =>
      c'.Wrote w f [.withOperand op v] (p.emit [.withOperand op v]) := by
  obtain ⟨t, run, at'⟩ := h.append (.withOperand op v)
  refine (meets_edit (Q := fun _ c' => c' = { c with table := t }) ?_).always ?_
  · rw [run]
    exact ⟨trivial, rfl⟩
  · rintro _ _ rfl
    exact meets_pure trivial at'

theorem meets_emit (h : c.At w f p) (op : Opcode) :
    (emit op).Meets c True fun _ c' => c'.Wrote w f [.plain op] (p.emit [.plain op]) := by
  obtain ⟨t, run, at'⟩ := h.append (.plain op)
  refine (meets_edit (Q := fun _ c' => c' = { c with table := t }) ?_).always ?_
  · rw [run]
    exact ⟨trivial, rfl⟩
  · rintro _ _ rfl
    exact meets_pure trivial at'

theorem meets_placeholder (h : c.At w f p) (op : Opcode) :
    (placeholder op).Meets c True fun site c' =>
      site = ⟨w.before.length, f.body.length⟩ ∧ c'.Wrote w f [.plain op] (p.emit [.plain op]) := by
  obtain ⟨t, run, at'⟩ := h.append (.plain op)
  refine meets_edit ?_
  simp only [Table.placeholder, run, bind, Except.bind, pure, Except.pure]
  exact ⟨trivial, by rw [h.current], at'⟩

theorem meets_here (h : c.At w f p) :
    here.Meets c True fun n c' => n = f.body.length ∧ c = c' := by
  have run : c.table.instrCount c.current = .ok f.body.length := by
    simp [Table.instrCount, h.function, bind, Except.bind, pure, Except.pure]
  refine meets_ask ?_
  rw [run]
  exact ⟨trivial, rfl, rfl⟩

theorem meets_function (h : c.At w f p) :
    (ask (·.function ·)).Meets c True fun info c' => f = info ∧ c = c' := by
  refine meets_ask ?_
  rw [h.function]
  exact ⟨trivial, rfl, rfl⟩

/-- Patching fills in the operand that is missing. -/
theorem meets_patch {q : Point} {a b : List Instr} {op : Opcode} {k : Nat}
    (h : c.Wrote w f (a ++ .plain op :: b) q) (hk : k = f.body.length + a.length) (v : Int64) :
    (patch ⟨w.before.length, k⟩ v).Meets c True fun _ c' =>
      c'.Wrote w f (a ++ .withOperand op v :: b) q := by
  subst hk
  have lt : f.body.length + a.length < (f.write q (a ++ .plain op :: b)).body.length := by
    simp [FnInfo.write]
  obtain ⟨t, run, at'⟩ := h.patch lt v
  refine meets_update ?_
  simp only [run, bind, Except.bind, pure, Except.pure]
  rw [Context.At.setOperand_write] at at'
  exact ⟨trivial, at'⟩

end Lower

end CZero
