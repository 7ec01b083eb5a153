import CZero.Proofs.Semantics.Eval
import Mathlib.Data.List.Nodup

/-!
# Variables in order

Generation numbers the variables of a function in the order of their declaration, parameters first, and
keeps two counts: local variables that have a slot, and globals. Both are determined by the tree: at every
point the variables are those that are in scope there (`Stmt.scope`), and the globals are as many as there
are string literals before it.
-/

namespace CZero

theorem Ty.returnSlots_le (ty : Ty) : ty.returnSlots ≤ 1 := by
  cases ty <;> simp [returnSlots]

/-- The slot of the `k`-th variable of a function, of which the first are parameters. -/
def Slot.ofVariable (params k : Nat) : Slot :=
  if k < params then .arg k else .loc (k - params)

/-- The layer gives the variables of a function their slots in order; the newest is first. -/
def Layer.IsOrdered (l : Layer) (params : Nat) : Prop :=
  ∀ (k : Nat) (x : String) (b : Binding), l.reverse[k]? = some (x, b) →
    ∃ ty isConst, b = .var (.ofVariable params k) ty isConst

/-- Inside a function with so many parameters, behind the declarations of `σ` and `n` globals. -/
structure Point.IsAt (P : Point) (params : Nat) (outer : Layer) (ret : Ty) (σ : List String) (n : Nat) :
    Prop where
  outer : P.env.outer = outer
  ret : P.env.ret = ret
  inner : ∃ l : Layer, P.env.inner = some l ∧ l.map Prod.fst = σ ∧ l.IsOrdered params
  locals : params + P.locals.length = σ.length
  data : P.data.length = n
  nodup : σ.Nodup

theorem Layer.IsOrdered.cons {l : Layer} {params : Nat} (h : l.IsOrdered params) (x : String) {slot : Slot}
    (eq : slot = .ofVariable params l.length) (ty : Ty) (isConst : Bool) :
    Layer.IsOrdered ((x, .var slot ty isConst) :: l) params := by
  intro k y b hk
  rw [List.reverse_cons] at hk
  by_cases lt : k < l.length
  · rw [List.getElem?_append_left (by simpa using lt)] at hk
    exact h k y b hk
  · rw [List.getElem?_append_right (by simpa using lt), List.length_reverse,
      List.getElem?_singleton] at hk
    obtain ⟨zero, pair⟩ := Option.ite_none_right_eq_some.1 hk
    obtain ⟨⟩ := Option.some_inj.1 pair
    obtain rfl : k = l.length := by omega
    exact ⟨ty, isConst, by rw [eq]⟩

theorem Layer.mem_of_lookup {l : Layer} {x : String} {b : Binding} (h : l.lookup x = some b) :
    (x, b) ∈ l := by
  obtain ⟨before, after, rfl, -⟩ := List.lookup_eq_some_iff.1 h
  simp

theorem Layer.not_mem_of_lookup {l : Layer} {x : String} (h : l.lookup x = none) :
    x ∉ l.map Prod.fst := by
  rw [List.lookup_eq_none_iff] at h
  intro mem
  obtain ⟨⟨y, b⟩, hy, rfl⟩ := List.mem_map.1 mem
  simpa using h _ hy

theorem Names.declares_eq_false {names : Names} {x : String} (h : names.declares x = false) :
    x ∉ (names.inner.getD names.outer).map Prod.fst :=
  Layer.not_mem_of_lookup (Option.not_isSome_iff_eq_none.1 (by rw [Bool.not_eq_true]; exact h))

/-! ### Scopes only grow -/

mutual

theorem Stmt.suffix_scope (σ : List String) : (s : Stmt) → σ <:+ s.scope σ
  | .decl d => List.suffix_cons d.name.name σ
  | .cond c => c.suffix_scope σ
  | .loop _ body => body.suffix_scope σ
  | .block b => b.suffix_scope σ
  | .ret _ _ | .empty | .expr _ => List.suffix_rfl

theorem Block.suffix_scope (σ : List String) : (b : Block) → σ <:+ b.scope σ
  | .close | .cutOff _ => List.suffix_rfl
  | .stmt s rest => (s.suffix_scope σ).trans (rest.suffix_scope (s.scope σ))

theorem IfChain.suffix_scope (σ : List String) : (c : IfChain) → σ <:+ c.scope σ
  | .mk _ body otherwise => (body.suffix_scope σ).trans (otherwise.suffix_scope (body.scope σ))

theorem Else.suffix_scope (σ : List String) : (o : Else) → σ <:+ o.scope σ
  | .absent => List.suffix_rfl
  | .block b => b.suffix_scope σ
  | .chain c => c.suffix_scope σ

end

/-! ### Points -/

namespace Point.IsAt

variable {P : Point} {params n : Nat} {outer : Layer} {ret : Ty} {σ : List String}

theorem emit (h : P.IsAt params outer ret σ n) (code : List Instr) :
    (P.emit code).IsAt params outer ret σ n :=
  ⟨h.outer, h.ret, h.inner, h.locals, h.data, h.nodup⟩

theorem jump (h : P.IsAt params outer ret σ n) : P.jump.IsAt params outer ret σ n :=
  ⟨h.outer, h.ret, h.inner, h.locals, h.data, h.nodup⟩

theorem literals (h : P.IsAt params outer ret σ n) (texts : List String) :
    (P.literals texts).IsAt params outer ret σ (n + texts.length) :=
  ⟨h.outer, h.ret, h.inner, h.locals, by simp [Point.literals, h.data], h.nodup⟩

theorem gen (h : P.IsAt params outer ret σ n) (e : Expr) :
    (e.gen P).2.IsAt params outer ret σ (n + e.texts.length) :=
  (h.literals e.texts).emit _

theorem genCond (h : P.IsAt params outer ret σ n) (e : Expr) :
    (e.genCond P).2.IsAt params outer ret σ (n + e.texts.length) :=
  (h.gen e).emit _

theorem genStore (h : P.IsAt params outer ret σ n) (address : List Instr) (e : Expr) :
    (e.genStore P address).2.IsAt params outer ret σ (n + e.texts.length) :=
  ((h.emit address).gen e).emit _

theorem genRet (h : P.IsAt params outer ret σ n) (value : Option Expr) :
    (genRet P value).2.IsAt params outer ret σ (n + (value.elim [] Expr.texts).length) := by
  cases value with
  | none => exact h.emit _
  | some e => exact (h.genStore _ e).emit _

/-- The next variable takes the next slot. -/
theorem slot (h : P.IsAt params outer ret σ n) : Slot.loc P.locals.length = .ofVariable params σ.length := by
  have := h.locals
  rw [Slot.ofVariable, if_neg (by omega), ← this, Nat.add_sub_cancel_left]

theorem genDecl (h : P.IsAt params outer ret σ n) {d : Decl} (fresh : P.env.declares d.name.name = false) :
    (d.gen P).2.IsAt params outer ret (d.name.name :: σ) (n + d.texts.length) := by
  obtain ⟨l, inner, rfl, ordered⟩ := h.inner
  have locals := h.locals
  have slot := h.slot
  rw [List.length_map] at slot locals
  -- Behind the initial value, if there is one, nothing but the slot and the literals is new.
  have before : ∃ q : Point, (d.gen P).2 = q.declare d.name.name (.loc P.locals.length) d.type.ty d.isConst ∧
      q.env = P.env ∧ q.locals = P.locals ++ [d.name.name] ∧ q.data.length = n + d.texts.length := by
    unfold Decl.gen Decl.texts
    cases d.init with
    | none => exact ⟨_, rfl, rfl, rfl, h.data⟩
    | some e => exact ⟨_, rfl, rfl, rfl, by simp [Expr.genStore, Expr.gen, Point.literals, Point.emit,
        Point.reserve, h.data]⟩
  obtain ⟨q, eq, env, qlocals, data⟩ := before
  have found : q.env.inner = some l := env ▸ inner
  have new := Names.declares_eq_false fresh
  rw [inner, Option.getD_some] at new
  rw [eq]
  unfold Point.declare Names.bind
  rw [found]
  refine ⟨env ▸ h.outer, env ▸ h.ret, ⟨_, rfl, rfl, ordered.cons _ slot _ _⟩, ?_, ?_,
    List.nodup_cons.2 ⟨new, h.nodup⟩⟩
  · rw [qlocals]
    simp only [List.length_append, List.length_cons, List.length_nil, List.length_map]
    omega
  · simpa using data

end Point.IsAt

/-! ### Statements -/

mutual

/-- What the statement declares, and how many globals it takes. -/
theorem Stmt.Legal.isAt {P : Point} {params n : Nat} {outer : Layer} {ret : Ty} {σ : List String}
    (h : P.IsAt params outer ret σ n) :
    {s : Stmt} → s.Legal P → (s.gen P).2.IsAt params outer ret (s.scope σ) (n + s.texts.length)
  | .decl _, legal => h.genDecl legal.2
  | .cond _, legal => IfChain.Legal.isAt h legal
  | .loop c _, legal => by
    rw [Stmt.texts, List.length_append, ← Nat.add_assoc]
    exact (Block.Legal.isAt (h.jump.genCond c).jump legal.2).jump
  | .ret _ value, _ => h.genRet value
  | .block _, legal => Block.Legal.isAt h legal
  | .empty, _ => h
  | .expr e, _ => h.gen e

theorem Block.Legal.isAt {P : Point} {params n : Nat} {outer : Layer} {ret : Ty} {σ : List String}
    (h : P.IsAt params outer ret σ n) :
    {b : Block} → b.Legal P → (b.gen P).2.IsAt params outer ret (b.scope σ) (n + b.texts.length)
  | .close, _ => h
  | .cutOff _, legal => legal.elim
  | .stmt _ _, legal => by
    rw [Block.texts, List.length_append, ← Nat.add_assoc]
    exact Block.Legal.isAt (Stmt.Legal.isAt h legal.1) legal.2

theorem IfChain.Legal.isAt {P : Point} {params n : Nat} {outer : Layer} {ret : Ty} {σ : List String}
    (h : P.IsAt params outer ret σ n) :
    {c : IfChain} → c.Legal P → (c.gen P).2.IsAt params outer ret (c.scope σ) (n + c.texts.length)
  | .mk c _ _, legal => by
    rw [IfChain.texts, List.length_append, List.length_append, ← Nat.add_assoc, ← Nat.add_assoc]
    exact (Else.Legal.isAt (Block.Legal.isAt (h.genCond c).jump legal.2.1) legal.2.2).jump

theorem Else.Legal.isAt {P : Point} {params n : Nat} {outer : Layer} {ret : Ty} {σ : List String}
    (h : P.IsAt params outer ret σ n) :
    {o : Else} → o.Legal P → (o.gen P).2.IsAt params outer ret (o.scope σ) (n + o.texts.length)
  | .absent, _ => h
  | .block _, legal => Block.Legal.isAt h.jump legal
  | .chain _, legal => IfChain.Legal.isAt h.jump legal

end

/-! ### Functions -/

theorem FnItem.isOrdered_layer (ps : List Param) {l : Layer} {params : Nat} (h : l.IsOrdered params)
    (le : l.length + ps.length ≤ params) : (FnItem.layer l.length l ps).IsOrdered params := by
  induction ps generalizing l with
  | nil => exact h
  | cons q ps ih =>
    rw [List.length_cons] at le
    refine ih (h.cons q.name.name ?_ _ _) (by rw [List.length_cons]; omega)
    rw [Slot.ofVariable, if_pos (by omega)]

theorem FnItem.names_layer (ps : List Param) (index : Nat) (l : Layer) :
    (FnItem.layer index l ps).map Prod.fst = (ps.map (·.name.name)).reverse ++ l.map Prod.fst := by
  induction ps generalizing index l with
  | nil => rfl
  | cons q ps ih => simp [FnItem.layer, ih]

/-- Where the body of a function begins, its parameters are declared. -/
theorem FnItem.Legal.isAt_start {d : Draft} {f : FnItem} (h : f.Legal d) :
    (d.start f).IsAt f.params.length ((f.name.name, .fn d.fns.length f.ret) :: d.outer) f.ret f.scope
      d.data.length where
  outer := rfl
  ret := rfl
  inner := ⟨_, rfl, by simp [names_layer, scope],
    isOrdered_layer (l := []) f.params (fun _ _ _ h => by simp at h) (by simp)⟩
  locals := by simp [Draft.start, scope]
  data := rfl
  nodup := List.nodup_reverse.2 h.distinct

end CZero
