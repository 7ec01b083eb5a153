import CZero.Proofs.Codegen.Scope
import CZero.Proofs.Lowering.Sentence
import CZero.Proofs.Static.Rules

/-!
# Analysis checks the static rules

Generation checks a program part by part, in an environment that it extends as it goes. This is the same
as the static rules of the tree: the environment at a clause, with the slots left out, is what the clause
sees, and checking that each name is new when it is declared is checking that all names are different.
-/

namespace CZero

open Static

/-! ### What an environment shows -/

/-- What a name stands for, without its place. -/
def Binding.role : Binding → Role
  | .var _ ty isConst => .var ty isConst
  | .fn _ ret => .fn ret

/-- A layer without places. -/
def Layer.glossary (l : Layer) : Glossary :=
  l.map fun (name, b) => (name, b.role)

/-- What can be seen in an environment. -/
def Names.sight (names : Names) : Sight :=
  ⟨(names.inner.getD []).glossary, names.outer.glossary⟩

theorem Layer.lookup_glossary (l : Layer) (name : String) :
    l.glossary.lookup name = (l.lookup name).map Binding.role := by
  induction l with
  | nil => rfl
  | cons entry l ih =>
    obtain ⟨x, b⟩ := entry
    simp only [glossary, List.map_cons, List.lookup_cons]
    split
    · rfl
    · exact ih

theorem Layer.map_fst_glossary (l : Layer) : l.glossary.map Prod.fst = l.map Prod.fst := by
  rw [glossary, List.map_map]
  rfl

theorem Names.find?_sight (names : Names) (name : String) :
    names.sight.find? name = (names.find? name).map Binding.role := by
  unfold Names.sight Sight.find? Names.find?
  rw [Layer.lookup_glossary, Layer.lookup_glossary, Option.map_or]
  cases names.inner <;> rfl

/-! ### Types -/

theorem Ident.isValueType_iff {type : Ident} : type.IsStorable ↔ type.IsValueType := by
  unfold IsStorable IsValueType Ty.ofName?
  constructor
  · rintro ⟨ty, named, storable⟩
    split at named
    · exact .inl ‹_›
    · split at named
      · exact .inr ‹_›
      · split at named <;> cases named
        cases storable
  · rintro (eq | eq)
    · exact ⟨.int, by simp [eq], rfl⟩
    · exact ⟨.double, by simp [eq], rfl⟩

theorem Ident.isResultType_iff {type : Ident} : (Ty.ofName? type.name).isSome ↔ type.IsResultType := by
  unfold IsResultType IsValueType Ty.ofName?
  by_cases int : type.name = "int"
  · simp [int]
  by_cases double : type.name = "double"
  · simp [double]
  by_cases void : type.name = "void"
  · simp [void]
  · simp [int, double, void]

/-! ### Expressions -/

/-- The outermost name or type of an expression is what it should be. -/
def Expr.IsSound (σ : Sight) : Expr → Prop
  | .load name => ∃ ty isConst, σ.find? name.name = some (.var ty isConst)
  | .assign name e => σ.find? name.name = some (.var .int false) ∧ e.typeIn σ ≠ .void
  | .call name _ => ∃ ret, σ.find? name.name = some (.fn ret)
  | .cast _ type => type.IsResultType
  | _ => True

/-- All parts of an expression are sound. -/
def Expr.AllSound (σ : Sight) (e : Expr) : Prop :=
  ∀ part ∈ e.parts, part.IsSound σ

/-- All parts of arguments are sound. -/
def Args.AllSound (σ : Sight) (as : Args) : Prop :=
  ∀ part ∈ as.parts, part.IsSound σ

section AllSound

variable {σ : Sight} {name type : Ident} {e lhs rhs : Expr} {as : Args}

theorem Expr.allSound_load :
    (Expr.load name).AllSound σ ↔ ∃ ty isConst, σ.find? name.name = some (.var ty isConst) :=
  List.forall_mem_singleton

theorem Expr.allSound_assign : (Expr.assign name e).AllSound σ ↔
    (σ.find? name.name = some (.var .int false) ∧ e.typeIn σ ≠ .void) ∧ e.AllSound σ :=
  List.forall_mem_cons

theorem Expr.allSound_call :
    (Expr.call name as).AllSound σ ↔ (∃ ret, σ.find? name.name = some (.fn ret)) ∧ as.AllSound σ :=
  List.forall_mem_cons

theorem Expr.allSound_paren : (Expr.paren e).AllSound σ ↔ e.AllSound σ :=
  List.forall_mem_cons.trans (and_iff_right trivial)

theorem Expr.allSound_neg {signs : Nat} : (Expr.neg signs e).AllSound σ ↔ e.AllSound σ :=
  List.forall_mem_cons.trans (and_iff_right trivial)

theorem Expr.allSound_cast : (Expr.cast e type).AllSound σ ↔ type.IsResultType ∧ e.AllSound σ :=
  List.forall_mem_cons

theorem Expr.allSound_arith {op : ArithOp} : (Expr.arith op lhs rhs).AllSound σ ↔
    lhs.AllSound σ ∧ rhs.AllSound σ :=
  (List.forall_mem_cons.trans (and_iff_right trivial)).trans List.forall_mem_append

theorem Expr.allSound_compare {op : CompareOp} : (Expr.compare op lhs rhs).AllSound σ ↔
    lhs.AllSound σ ∧ rhs.AllSound σ :=
  (List.forall_mem_cons.trans (and_iff_right trivial)).trans List.forall_mem_append

theorem Args.allSound_arg : (Args.arg e as).AllSound σ ↔ e.AllSound σ ∧ as.AllSound σ :=
  List.forall_mem_append

end AllSound

/-- A type that is there exactly under a condition. -/
theorem exists_or_none {o : Option Ty} {A : Prop} {t : Ty} (h : ∀ {ty}, o = some ty ↔ A ∧ t = ty) :
    A ∧ o = some t ∨ ¬A ∧ o = none := by
  by_cases sound : A
  · exact .inl ⟨sound, h.2 ⟨sound, rfl⟩⟩
  · exact .inr ⟨sound, Option.eq_none_iff_forall_ne_some.2 fun ty eq => sound (h.1 eq).1⟩

mutual

/-- An expression has a type exactly if all of its parts are sound. -/
theorem Expr.type?_eq_some_iff {ρ : Env} : (e : Expr) → e.IsWhole → {ty : Ty} →
    (e.type? ρ = some ty ↔ e.AllSound ρ.sight ∧ e.typeIn ρ.sight = ty)
  | .hole _, whole, _ | .cutOff _ _, whole, _ => whole.elim
  | .uint _, _, _ | .double _, _, _ | .string _, _, _ | .char _, _, _ => by
    simp [Expr.type?, Expr.AllSound, Expr.parts, Expr.IsSound, Expr.typeIn]
  | .load name, _, _ => by
    rw [Expr.allSound_load]
    simp only [Expr.type?, Expr.typeIn, Names.find?_sight]
    cases ρ.find? name.name with
    | none => simp
    | some b => cases b <;> simp [Binding.role]
  | .assign name e, whole, _ => by
    rw [Expr.allSound_assign]
    simp only [Expr.type?, Expr.typeIn, Names.find?_sight]
    obtain ⟨sound, eq⟩ | ⟨unsound, eq⟩ := exists_or_none (e.type?_eq_some_iff (ρ := ρ) whole)
    · cases ρ.find? name.name with
      | none => simp
      | some b => cases b with
        | fn index ret => simp [Binding.role]
        | var slot ty isConst => cases ty <;> cases isConst <;> simp [Binding.role, eq, sound]
    · simp [eq, unsound]
  | .call name as, whole, _ => by
    rw [Expr.allSound_call, ← as.typed_iff whole]
    simp only [Expr.type?, Expr.typeIn, Names.find?_sight]
    cases ρ.find? name.name with
    | none => simp
    | some b => cases b <;> simp [Binding.role]
  | .paren e, whole, _ => by
    rw [Expr.allSound_paren]
    exact e.type?_eq_some_iff whole
  | .neg _ e, whole, _ => by
    rw [Expr.allSound_neg]
    exact e.type?_eq_some_iff whole
  | .cast e type, whole, _ => by
    rw [Expr.allSound_cast, ← Ident.isResultType_iff]
    simp [Expr.type?, Expr.typeIn, e.type?_eq_some_iff (ρ := ρ) whole, and_assoc]
  | .arith _ lhs rhs, whole, _ => by
    rw [Expr.allSound_arith]
    simp only [Expr.type?, Expr.typeIn]
    obtain ⟨sound, eq⟩ | ⟨unsound, eq⟩ := exists_or_none (rhs.type?_eq_some_iff (ρ := ρ) whole.2)
    · simp [eq, sound, lhs.type?_eq_some_iff (ρ := ρ) whole.1]
    · simp [eq, unsound]
  | .compare _ lhs rhs, whole, _ => by
    rw [Expr.allSound_compare]
    simp only [Expr.type?, Expr.typeIn]
    obtain ⟨sound, eq⟩ | ⟨unsound, eq⟩ := exists_or_none (rhs.type?_eq_some_iff (ρ := ρ) whole.2)
    · simp [eq, sound, lhs.type?_eq_some_iff (ρ := ρ) whole.1]
    · simp [eq, unsound]

theorem Args.typed_iff {ρ : Env} : (as : Args) → as.IsWhole → (as.typed ρ ↔ as.AllSound ρ.sight)
  | .close, _ => by simp [Args.typed, Args.AllSound, Args.parts]
  | .cutOff _, whole => whole.elim
  | .arg e rest, whole => by
    rw [Args.allSound_arg, ← rest.typed_iff whole.2]
    obtain ⟨sound, eq⟩ | ⟨unsound, eq⟩ := exists_or_none (e.type?_eq_some_iff (ρ := ρ) whole.1)
    · simp [Args.typed, eq, sound]
    · simp [Args.typed, eq, unsound]

end

theorem Expr.exists_type?_iff {ρ : Env} {e : Expr} (whole : e.IsWhole) :
    (∃ ty, e.type? ρ = some ty) ↔ e.AllSound ρ.sight := by
  simp [e.type?_eq_some_iff whole]

/-! ### Clauses -/

namespace Static

/-- What holds at each place of a list holds at its head and at each place behind it. -/
theorem forall_split_cons {α : Type} {P : List α → α → Prop} {x : α} {xs : List α} :
    (∀ before y after, x :: xs = before ++ y :: after → P before y) ↔
      P [] x ∧ ∀ before y after, xs = before ++ y :: after → P (x :: before) y := by
  constructor
  · exact fun h => ⟨h [] x xs rfl, fun before y after eq => h (x :: before) y after (congrArg (x :: ·) eq)⟩
  · rintro ⟨head, tail⟩ before y after eq
    cases before with
    | nil =>
      obtain ⟨rfl, -⟩ := List.cons.inj eq
      exact head
    | cons z before =>
      obtain ⟨rfl, rfl⟩ := List.cons.inj eq
      exact tail before y after rfl

/-- The names are all different. -/
def Glossary.IsClear (g : Glossary) : Prop :=
  (g.map Prod.fst).Nodup

/-- Parts of a program are checked one after the other. Each sees the names of those before it, and
none brings a name that is there already. -/
def InOrder {α : Type} (ok : Glossary → α → Prop) (brings : α → Option (String × Role)) :
    Glossary → List α → Prop
  | _, [] => True
  | g, x :: xs => ok g x ∧ (∀ entry ∈ brings x, entry.1 ∉ g.map Prod.fst) ∧
    InOrder ok brings ((brings x).toList ++ g) xs

section InOrder

variable {α : Type} {ok : Glossary → α → Prop} {brings : α → Option (String × Role)} {g : Glossary}
  {xs ys : List α}

theorem inOrder_append : InOrder ok brings g (xs ++ ys) ↔
    InOrder ok brings g xs ∧ InOrder ok brings ((xs.filterMap brings).reverse ++ g) ys := by
  induction xs generalizing g with
  | nil => exact (and_iff_right trivial).symm
  | cons x xs ih =>
    rw [List.cons_append, InOrder, InOrder, ih, and_assoc, and_assoc]
    cases eq : brings x <;> simp [eq]

theorem Glossary.isClear_behind {new : Option (String × Role)} (clear : g.IsClear) :
    IsClear (new.toList ++ g) ↔ ∀ entry ∈ new, entry.1 ∉ g.map Prod.fst := by
  cases new with
  | none => simp [clear]
  | some entry =>
    rw [Option.toList_some, List.singleton_append, IsClear, List.map_cons, List.nodup_cons]
    simp only [Option.mem_some_iff, forall_eq', and_iff_left_iff_imp]
    exact fun _ => clear

/-- Names that are new when they are brought are all different, and what is seen at each place does not
depend on the order of the checks. -/
theorem inOrder_iff (clear : g.IsClear) : InOrder ok brings g xs ↔
    (∀ before x after, xs = before ++ x :: after → ok ((before.filterMap brings).reverse ++ g) x) ∧
      Glossary.IsClear ((xs.filterMap brings).reverse ++ g) := by
  induction xs generalizing g with
  | nil => simp [InOrder, clear]
  | cons x xs ih =>
    have behind : ∀ xs : List α, ((x :: xs).filterMap brings).reverse ++ g =
        (xs.filterMap brings).reverse ++ ((brings x).toList ++ g) := by
      intro xs
      cases eq : brings x <;> simp [eq]
    simp only [InOrder, forall_split_cons, ← Glossary.isClear_behind clear, behind]
    constructor
    · rintro ⟨head, fresh, rest⟩
      obtain ⟨splits, final⟩ := (ih fresh).1 rest
      exact ⟨⟨head, splits⟩, final⟩
    · rintro ⟨⟨head, splits⟩, final⟩
      have fresh : Glossary.IsClear ((brings x).toList ++ g) := by
        rw [Glossary.IsClear, List.map_append] at final
        exact final.of_append_right
      exact ⟨head, fresh, (ih fresh).2 ⟨splits, final⟩⟩

end InOrder

/-- A clause keeps the static rules, in a function with result type `ret` or outside of all. -/
def Clause.IsSound (σ : Sight) (ret : Option Ty) (c : Clause) : Prop :=
  (∀ e ∈ c.expr?, e.AllSound σ) ∧
    match c with
    | .expr _ => True
    | .decl d => d.type.IsValueType ∧ ∀ e ∈ d.init, e.typeIn σ ≠ .void
    | .ret none => ∀ ty ∈ ret, ty = .void
    | .ret (some e) => ∀ ty ∈ ret, ty ≠ .void ∧ e.typeIn σ = ty

/-- What is seen behind some clauses. -/
def Sight.behind (σ : Sight) (cs : List Clause) : Sight :=
  { σ with own := (cs.filterMap Clause.brings).reverse ++ σ.own }

theorem Sight.behind_append (σ : Sight) (cs ds : List Clause) : σ.behind (cs ++ ds) = (σ.behind cs).behind ds := by
  simp [behind]

/-- Clauses keep the static rules one after the other, and none declares a name that is its function's
already. -/
def AllSound (σ : Sight) (ret : Option Ty) (cs : List Clause) : Prop :=
  InOrder (fun own c => c.IsSound ⟨own, σ.globals⟩ ret) Clause.brings σ.own cs

section AllSound

variable {σ : Sight} {ret : Option Ty} {cs ds : List Clause}

theorem allSound_append : AllSound σ ret (cs ++ ds) ↔ AllSound σ ret cs ∧ AllSound (σ.behind cs) ret ds :=
  inOrder_append

theorem allSound_expr {e : Expr} :
    AllSound σ ret (.expr e :: cs) ↔ e.AllSound σ ∧ AllSound σ ret cs := by
  simp [AllSound, InOrder, Clause.IsSound, Clause.expr?, Clause.brings]

theorem allSound_singleton {c : Clause} : AllSound σ ret [c] ↔
    c.IsSound σ ret ∧ ∀ entry ∈ c.brings, entry.1 ∉ σ.own.map Prod.fst := by
  simp only [AllSound, InOrder, and_true]

end AllSound

end Static

/-! ### Statements -/

/-- Inside a function with result type `ret`, where the names of `σ` are seen. -/
structure Point.Shows (P : Point) (σ : Sight) (ret : Ty) : Prop where
  sight : P.env.sight = σ
  ret : P.env.ret = ret
  inside : P.env.inner.isSome

namespace Point.Shows

variable {P : Point} {σ : Sight} {ret : Ty}

theorem of_env {Q : Point} (h : P.Shows σ ret) (eq : Q.env = P.env) : Q.Shows σ ret :=
  ⟨eq ▸ h.sight, eq ▸ h.ret, eq ▸ h.inside⟩

theorem genDecl (h : P.Shows σ ret) (d : Decl) : (d.gen P).2.Shows (σ.behind [.decl d]) ret := by
  obtain ⟨rfl, rfl, inside⟩ := h
  obtain ⟨l, eq⟩ := Option.isSome_iff_exists.1 inside
  -- The initial value does not change what is seen.
  have before : ∃ q : Point, (d.gen P).2 = q.declare d.name.name (.loc P.locals.length) d.type.ty d.isConst ∧
      q.env = P.env := by
    unfold Decl.gen
    cases d.init with
    | none => exact ⟨_, rfl, rfl⟩
    | some e => exact ⟨_, rfl, rfl⟩
  obtain ⟨q, gen, env⟩ := before
  rw [gen]
  constructor <;>
    simp [Point.declare, Names.bind, Names.sight, env, eq, Sight.behind, Clause.brings, Decl.entry,
      Layer.glossary, Binding.role]

end Point.Shows

mutual

/-- Behind a statement its variables are seen. -/
theorem Stmt.shows_gen {P : Point} {σ : Sight} {ret : Ty} (h : P.Shows σ ret) : (s : Stmt) →
    (s.gen P).2.Shows (σ.behind s.clauses) ret
  | .decl d => h.genDecl d
  | .cond c => c.shows_gen h
  | .loop e body => (body.shows_gen (P := (e.genCond P.jump).2.jump) (h.of_env rfl)).of_env rfl
  | .ret _ none => h.of_env rfl
  | .ret _ (some _) => h.of_env rfl
  | .block b => b.shows_gen h
  | .empty => h
  | .expr _ => h.of_env rfl

/-- Behind a block its variables are seen. -/
theorem Block.shows_gen {P : Point} {σ : Sight} {ret : Ty} (h : P.Shows σ ret) : (b : Block) →
    (b.gen P).2.Shows (σ.behind b.clauses) ret
  | .close | .cutOff _ => h
  | .stmt s rest => by
    rw [Block.clauses, Sight.behind_append]
    exact rest.shows_gen (s.shows_gen h)

/-- Behind a conditional statement its variables are seen. -/
theorem IfChain.shows_gen {P : Point} {σ : Sight} {ret : Ty} (h : P.Shows σ ret) : (c : IfChain) →
    (c.gen P).2.Shows (σ.behind c.clauses) ret
  | .mk e body otherwise => by
    have inner : (e.genCond P).2.jump.Shows (σ.behind [.expr e]) ret := h.of_env rfl
    rw [IfChain.clauses, ← List.singleton_append, Sight.behind_append, Sight.behind_append]
    exact (otherwise.shows_gen (body.shows_gen inner)).of_env rfl

/-- Behind what follows a conditional block its variables are seen. -/
theorem Else.shows_gen {P : Point} {σ : Sight} {ret : Ty} (h : P.Shows σ ret) : (o : Else) →
    (o.gen P).2.Shows (σ.behind o.clauses) ret
  | .absent => h
  | .block b => b.shows_gen (P := P.jump) (h.of_env rfl)
  | .chain c => c.shows_gen (P := P.jump) (h.of_env rfl)

end

theorem Layer.lookup_eq_none_iff {l : Layer} {name : String} :
    l.lookup name = none ↔ name ∉ l.glossary.map Prod.fst := by
  rw [map_fst_glossary]
  refine ⟨Layer.not_mem_of_lookup, fun h => List.lookup_eq_none_iff.2 fun entry mem => ?_⟩
  rw [bne_iff_ne]
  rintro rfl
  exact h (List.mem_map_of_mem mem)

theorem Names.declares_eq_false_iff {names : Names} {name : String} :
    names.declares name = false ↔ name ∉ (names.inner.getD names.outer).glossary.map Prod.fst := by
  rw [declares, Option.isSome_eq_false_iff, Option.isNone_iff_eq_none, Layer.lookup_eq_none_iff]

/-- A declaration fits exactly if it keeps the static rules. -/
theorem Decl.fits_iff {ρ : Env} {d : Decl} (whole : d.IsWhole) (ret : Option Ty) :
    d.Fits ρ ↔ (Clause.decl d).IsSound ρ.sight ret := by
  obtain ⟨complete, init⟩ := whole
  simp only [Fits, Clause.IsSound, Clause.expr?, complete, true_and, ← Ident.isValueType_iff]
  constructor
  · rintro ⟨storable, h⟩
    refine ⟨fun e mem => ?_, storable, fun e mem => ?_⟩
    all_goals
      obtain ⟨ty, eq, ne⟩ := h e mem
      obtain ⟨sound, rfl⟩ := (e.type?_eq_some_iff (init e mem)).1 eq
    · exact sound
    · exact ne
  · rintro ⟨sound, storable, ne⟩
    exact ⟨storable, fun e mem => ⟨_, (e.type?_eq_some_iff (init e mem)).2 ⟨sound e mem, rfl⟩, ne e mem⟩⟩

/-- A `return` is legal exactly if it keeps the static rules. -/
theorem legalRet_iff {ρ : Env} {value : Option Expr} (whole : ∀ e ∈ value, e.IsWhole) :
    LegalRet ρ value ↔ (Clause.ret value).IsSound ρ.sight (some ρ.ret) := by
  cases value with
  | none => simp [LegalRet, Clause.IsSound, Clause.expr?]
  | some e =>
    simp only [LegalRet, Clause.IsSound, Clause.expr?, Option.mem_some_iff, forall_eq',
      e.type?_eq_some_iff (whole e rfl)]
    tauto

mutual

/-- A statement is legal exactly if its clauses keep the static rules. -/
theorem Stmt.legal_iff {P : Point} {σ : Sight} {ret : Ty} (h : P.Shows σ ret) : (s : Stmt) → s.IsWhole →
    (s.Legal P ↔ AllSound σ (some ret) s.clauses)
  | .decl d, whole => by
    obtain ⟨rfl, rfl, inside⟩ := h
    obtain ⟨l, eq⟩ := Option.isSome_iff_exists.1 inside
    have fresh : P.env.declares d.name.name = false ↔ d.name.name ∉ P.env.sight.own.map Prod.fst := by
      rw [Names.declares_eq_false_iff, Names.sight, eq]
      rfl
    rw [Stmt.Legal, d.fits_iff whole (some P.env.ret), fresh, Stmt.clauses, allSound_singleton]
    simp only [Clause.brings, Option.mem_some_iff, forall_eq', Decl.entry]
  | .cond c, whole => c.legal_iff h whole
  | .loop e body, whole => by
    have inner : (e.genCond P.jump).2.jump.Shows σ ret := h.of_env rfl
    rw [Stmt.Legal, Stmt.clauses, allSound_expr, e.exists_type?_iff whole.1, h.sight,
      body.legal_iff inner whole.2]
  | .ret _ value, whole => by
    obtain ⟨rfl, rfl, inside⟩ := h
    rw [Stmt.Legal, legalRet_iff whole, Stmt.clauses, allSound_singleton]
    exact (and_iff_left nofun).symm
  | .block b, whole => b.legal_iff h whole
  | .empty, _ => Iff.rfl
  | .expr e, whole => by
    rw [Stmt.Legal, Stmt.clauses, allSound_expr, e.exists_type?_iff whole, h.sight]
    exact (and_iff_left trivial).symm

/-- A block is legal exactly if its clauses keep the static rules. -/
theorem Block.legal_iff {P : Point} {σ : Sight} {ret : Ty} (h : P.Shows σ ret) : (b : Block) → b.IsWhole →
    (b.Legal P ↔ AllSound σ (some ret) b.clauses)
  | .close, _ => Iff.rfl
  | .cutOff _, whole => whole.elim
  | .stmt s rest, whole => by
    rw [Block.Legal, Block.clauses, allSound_append, s.legal_iff h whole.1,
      rest.legal_iff (s.shows_gen h) whole.2]

/-- A conditional statement is legal exactly if its clauses keep the static rules. -/
theorem IfChain.legal_iff {P : Point} {σ : Sight} {ret : Ty} (h : P.Shows σ ret) : (c : IfChain) →
    c.IsWhole → (c.Legal P ↔ AllSound σ (some ret) c.clauses)
  | .mk e body otherwise, whole => by
    have inner : (e.genCond P).2.jump.Shows σ ret := h.of_env rfl
    rw [IfChain.Legal, IfChain.clauses, allSound_expr, e.exists_type?_iff whole.1, h.sight,
      allSound_append, body.legal_iff inner whole.2.1, otherwise.legal_iff (body.shows_gen inner) whole.2.2]

/-- What follows a conditional block is legal exactly if its clauses keep the static rules. -/
theorem Else.legal_iff {P : Point} {σ : Sight} {ret : Ty} (h : P.Shows σ ret) : (o : Else) → o.IsWhole →
    (o.Legal P ↔ AllSound σ (some ret) o.clauses)
  | .absent, _ => Iff.rfl
  | .block b, whole => b.legal_iff (P := P.jump) (h.of_env rfl) whole
  | .chain c, whole => c.legal_iff (P := P.jump) (h.of_env rfl) whole

end

end CZero
