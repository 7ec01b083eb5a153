import CZero.Proofs.Codegen.References
import CZero.Proofs.Preservation.Program

/-!
# The numbers of a program's globals and functions

A program's roster is read off its parts in the order of the source. A string literal is registered where
it stands and a global variable at the end of its declaration, so behind the literals of its initial
value. A function is registered once, and its string literals with it.

Main statements: at every point of a program the numbers that generation has given out are those of the
roster of the parts before (`Draft.Enrolls`), and the operands of every function spell what its tree refers
to, by the roster of the whole program (`Program.Legal.spells_function`, `Item.spells_startCode`).
-/

namespace CZero

/-! ### Rosters -/

/-- The string literals of a part of a program. -/
def Item.texts : Item → List String
  | .fn f => f.body.texts
  | .decl g => g.texts

/-- What a part of a program registers, in order. -/
def Item.registrations : Item → List Registration
  | .fn f => f.body.texts.map .literal
  | .decl g => g.texts.map .literal ++ [.scalar g.name.name g.isConst]

/-- The function, if the part is one. -/
def Item.fn? : Item → Option FnItem
  | .fn f => some f
  | .decl _ => none

/-- The functions among parts of a program. -/
def Item.fns (items : List Item) : List FnItem :=
  items.filterMap Item.fn?

/-- The roster of parts of a program. -/
def rosterOf (items : List Item) : Roster where
  globals := items.flatMap Item.registrations
  functions := (entryName, .void) :: (Item.fns items).map fun f => (f.name.name, f.ret)

/-- The global that is registered. -/
def Registration.global : Registration → Global
  | .scalar _ isConst => .scalar isConst
  | .literal text => .ofText text

theorem globals_rosterOf_append (items more : List Item) :
    (rosterOf (items ++ more)).globals = (rosterOf items).globals ++ more.flatMap Item.registrations :=
  List.flatMap_append

theorem functions_rosterOf_append (items more : List Item) :
    (rosterOf (items ++ more)).functions
      = (rosterOf items).functions ++ (Item.fns more).map fun f => (f.name.name, f.ret) := by
  simp [rosterOf, Item.fns]

theorem getElem?_append_of_some {α : Type} {l : List α} {i : Nat} {a : α} (h : l[i]? = some a) (more : List α) :
    (l ++ more)[i]? = some a := by
  rw [List.getElem?_append_left (List.getElem?_eq_some_iff.1 h).1, h]

/-- What is registered stays, and keeps its number. -/
theorem Roster.Covers.append {items : List Item} {outer : Layer} (h : (rosterOf items).Covers outer)
    (more : List Item) : (rosterOf (items ++ more)).Covers outer := by
  intro name b mem
  have has := h name b mem
  cases b with
  | var slot ty isConst =>
    obtain ⟨i, eq, at_i⟩ := has
    exact ⟨i, eq, by rw [globals_rosterOf_append]; exact getElem?_append_of_some at_i _⟩
  | fn index ret =>
    rcases has with library | ⟨le, at_i⟩
    · exact .inl library
    · exact .inr ⟨le, by rw [functions_rosterOf_append]; exact getElem?_append_of_some at_i _⟩

theorem Roster.Covers.cons {r : Roster} {outer : Layer} (h : r.Covers outer) {name : String} {b : Binding}
    (has : r.Has name b) : r.Covers ((name, b) :: outer) := by
  intro name' b' mem
  rcases List.mem_cons.1 mem with eq | mem
  · cases eq
    exact has
  · exact h name' b' mem

theorem countP_registrations (items : List Item) :
    (items.flatMap Item.registrations).countP Registration.isLiteral = (items.flatMap Item.texts).length := by
  induction items with
  | nil => rfl
  | cons i rest ih =>
    rw [List.flatMap_cons, List.flatMap_cons, List.countP_append, List.length_append, ih]
    cases i with
    | fn f => rw [Item.registrations, Item.texts, Roster.countP_literal]
    | decl g => rw [Item.registrations, Item.texts, List.countP_append, Roster.countP_literal]; rfl

/-- The literals of a part stand behind all that was registered before. -/
theorem places_texts (before : List Item) (i : Item) (after : List Item) :
    (rosterOf (before ++ i :: after)).Places (rosterOf before).globals.length
      (before.flatMap Item.texts).length i.texts := by
  refine ⟨before.flatMap Item.registrations,
    i.registrations.drop i.texts.length ++ after.flatMap Item.registrations, ?_, rfl,
    countP_registrations before⟩
  rw [globals_rosterOf_append, List.flatMap_cons]
  cases i <;> simp [rosterOf, Item.registrations, Item.texts]

/-! ### Literals in code -/

theorem Decl.data_gen {P : Point} (inside : P.env.inner.isSome) (d : Decl) :
    (d.gen P).2.data = P.data ++ d.texts.map .ofText := by
  unfold Decl.gen Decl.texts
  cases d.init with
  | none => simp [Point.declare, Point.reserve, inside]
  | some e =>
    simp [Point.declare, Expr.genStore, Expr.gen, Point.literals, Point.emit, Point.reserve, inside]

mutual

/-- A statement takes a global for each of its string literals. -/
theorem Stmt.Legal.data_gen {P : Point} {params n : Nat} {outer : Layer} {ret : Ty} {σ : List String}
    (h : P.IsAt params outer ret σ n) :
    {s : Stmt} → s.Legal P → (s.gen P).2.data = P.data ++ s.texts.map .ofText
  | .decl d, _ => by
    obtain ⟨l, inner, -⟩ := h.inner
    exact d.data_gen (by rw [inner]; rfl)
  | .cond _, legal => IfChain.Legal.data_gen h legal
  | .loop c _, legal => by
    rw [Stmt.texts, List.map_append, ← List.append_assoc]
    exact Block.Legal.data_gen (h.jump.genCond c).jump legal.2
  | .ret _ none, _ => (List.append_nil _).symm
  | .ret _ (some _), _ => rfl
  | .block _, legal => Block.Legal.data_gen h legal
  | .empty, _ => (List.append_nil _).symm
  | .expr _, _ => rfl

theorem Block.Legal.data_gen {P : Point} {params n : Nat} {outer : Layer} {ret : Ty} {σ : List String}
    (h : P.IsAt params outer ret σ n) :
    {b : Block} → b.Legal P → (b.gen P).2.data = P.data ++ b.texts.map .ofText
  | .close, _ => (List.append_nil _).symm
  | .cutOff _, legal => legal.elim
  | .stmt _ _, legal => by
    rw [Block.texts, List.map_append, ← List.append_assoc, ← Stmt.Legal.data_gen h legal.1]
    exact Block.Legal.data_gen (Stmt.Legal.isAt h legal.1) legal.2

theorem IfChain.Legal.data_gen {P : Point} {params n : Nat} {outer : Layer} {ret : Ty} {σ : List String}
    (h : P.IsAt params outer ret σ n) :
    {c : IfChain} → c.Legal P → (c.gen P).2.data = P.data ++ c.texts.map .ofText
  | .mk c body otherwise, legal => by
    have inside := (h.genCond c).jump
    have first : (body.gen (c.genCond P).2.jump).2.data = P.data ++ (c.texts ++ body.texts).map .ofText := by
      rw [List.map_append, ← List.append_assoc]
      exact Block.Legal.data_gen inside legal.2.1
    rw [IfChain.texts, List.map_append, ← List.append_assoc, ← first]
    exact Else.Legal.data_gen (Block.Legal.isAt inside legal.2.1) legal.2.2

theorem Else.Legal.data_gen {P : Point} {params n : Nat} {outer : Layer} {ret : Ty} {σ : List String}
    (h : P.IsAt params outer ret σ n) :
    {o : Else} → o.Legal P → (o.gen P).2.data = P.data ++ o.texts.map .ofText
  | .absent, _ => (List.append_nil _).symm
  | .block _, legal => Block.Legal.data_gen h.jump legal
  | .chain _, legal => IfChain.Legal.data_gen h.jump legal

end

/-! ### Drafts -/

/-- Generation has numbered what some parts of a program declare. -/
structure Draft.Enrolls (d : Draft) (items : List Item) : Prop where
  covers : (rosterOf items).Covers d.outer
  scalars : ∀ i name isConst, (rosterOf items).globals[i]? = some (.scalar name isConst) →
    ∃ ty, (name, .var (.glob i) ty isConst) ∈ d.outer
  functions : ∀ i name ret, (rosterOf items).functions[i]? = some (name, ret) →
    (name, .fn (entryIndex + i) ret) ∈ d.outer
  data : d.data = (rosterOf items).globals.map Registration.global
  count : d.fns.length = entryIndex + (rosterOf items).functions.length

namespace Draft

variable {d : Draft} {items : List Item}

theorem Enrolls.length_data (h : d.Enrolls items) : d.data.length = (rosterOf items).globals.length := by
  rw [h.data, List.length_map]

theorem enrolls_initial : initial.Enrolls [] := by
  refine ⟨fun name b mem => ?_, fun i name isConst h => ?_, fun i name ret h => ?_, rfl, rfl⟩
  · rcases List.mem_cons.1 mem with eq | mem
    · cases eq
      exact .inr ⟨Nat.le_refl _, rfl⟩
    · obtain ⟨i, lt, eq⟩ := List.mem_mapIdx.1 (List.mem_reverse.1 mem)
      cases eq
      exact .inl ⟨_, List.getElem?_eq_getElem lt, rfl, rfl⟩
  · simp [rosterOf] at h
  · obtain ⟨rfl, rfl, rfl⟩ : i = 0 ∧ entryName = name ∧ Ty.void = ret := by
      simpa [rosterOf, Item.fns, List.getElem?_singleton] using h
    exact List.mem_cons_self

theorem getElem?_of_literals {globals : List Registration} {texts : List String} {i : Nat} {name : String}
    {isConst : Bool} (h : (globals ++ texts.map .literal)[i]? = some (.scalar name isConst)) :
    globals[i]? = some (.scalar name isConst) := by
  rw [List.getElem?_append] at h
  split at h
  · exact h
  · obtain ⟨text, -, eq⟩ := List.mem_map.1 (List.mem_of_getElem? h)
    cases eq

theorem getElem?_concat_eq_some {α : Type} {l : List α} {a b : α} {i : Nat} (h : (l ++ [a])[i]? = some b) :
    l[i]? = some b ∨ i = l.length ∧ a = b := by
  rw [List.getElem?_append] at h
  split at h
  · exact .inl h
  · obtain ⟨zero, eq⟩ := Option.ite_none_right_eq_some.1 (List.getElem?_singleton.symm.trans h)
    exact .inr ⟨by omega, Option.some_inj.1 eq⟩

/-- A function takes the next number, and its literals the next globals. -/
theorem Enrolls.addFn (h : d.Enrolls items) {f : FnItem} (legal : f.Legal d) :
    (d.addFn f).Enrolls (items ++ [.fn f]) := by
  have outer := (addFn_eq legal).1
  have functions : (rosterOf (items ++ [.fn f])).functions
      = (rosterOf items).functions ++ [(f.name.name, f.ret)] := functions_rosterOf_append items [.fn f]
  have globals : (rosterOf (items ++ [.fn f])).globals
      = (rosterOf items).globals ++ f.body.texts.map .literal := by
    rw [globals_rosterOf_append]
    simp [Item.registrations]
  have own : (rosterOf (items ++ [.fn f])).functions[d.fns.length - entryIndex]?
      = some (f.name.name, f.ret) := by
    rw [functions, h.count, Nat.add_sub_cancel_left, List.getElem?_concat_length]
  refine ⟨?_, fun i name isConst at_i => ?_, fun i name ret at_i => ?_, ?_, ?_⟩
  · rw [outer]
    exact (h.covers.append _).cons (.inr ⟨by rw [h.count]; exact Nat.le_add_right _ _, own⟩)
  · rw [globals] at at_i
    obtain ⟨ty, mem⟩ := h.scalars i name isConst (getElem?_of_literals at_i)
    exact ⟨ty, outer ▸ List.mem_cons_of_mem _ mem⟩
  · rw [functions] at at_i
    rw [outer]
    rcases getElem?_concat_eq_some at_i with old | ⟨rfl, eq⟩
    · exact List.mem_cons_of_mem _ (h.functions i name ret old)
    · cases eq
      rw [← h.count]
      exact List.mem_cons_self
  · have data : (d.addFn f).data = d.data ++ f.body.texts.map .ofText :=
      legal.body.data_gen legal.isAt_start
    rw [data, h.data, globals]
    simp [Registration.global]
  · rw [fns_addFn, functions, List.length_append, List.length_append, h.count]
    rfl

/-- A variable takes the global behind the literals of its initial value. -/
theorem Enrolls.addDecl (h : d.Enrolls items) (g : Decl) : (d.addDecl g).Enrolls (items ++ [.decl g]) := by
  have functions : (rosterOf (items ++ [.decl g])).functions = (rosterOf items).functions :=
    (functions_rosterOf_append items [.decl g]).trans (List.append_nil _)
  have globals : (rosterOf (items ++ [.decl g])).globals
      = (rosterOf items).globals ++ g.texts.map .literal ++ [.scalar g.name.name g.isConst] := by
    rw [globals_rosterOf_append]
    simp [Item.registrations]
  have slot : d.data.length + g.texts.length
      = ((rosterOf items).globals ++ g.texts.map Registration.literal).length := by
    simp [h.length_data]
  refine ⟨(h.covers.append _).cons ⟨_, rfl, ?_⟩, fun i name isConst at_i => ?_, ?_, ?_, ?_⟩
  · rw [globals, slot, List.getElem?_concat_length]
  · rw [globals] at at_i
    rcases getElem?_concat_eq_some at_i with old | ⟨rfl, eq⟩
    · obtain ⟨ty, mem⟩ := h.scalars i name isConst (getElem?_of_literals old)
      exact ⟨ty, List.mem_cons_of_mem _ mem⟩
    · cases eq
      rw [← slot]
      exact ⟨_, List.mem_cons_self⟩
  · intro i name ret at_i
    rw [functions] at at_i
    exact List.mem_cons_of_mem _ (h.functions i name ret at_i)
  · rw [globals, Draft.addDecl, h.data]
    simp [Registration.global]
  · rw [functions, ← h.count]
    exact List.length_modify _ _ _

theorem Enrolls.foldl (h : d.Enrolls items) {more : List Item} (legal : LegalItems d more) :
    (more.foldl add d).Enrolls (items ++ more) := by
  induction more generalizing d items with
  | nil => rwa [List.append_nil]
  | cons i rest ih =>
    have step : (d.add i).Enrolls (items ++ [i]) := by
      cases i with
      | fn f => exact h.addFn legal.1
      | decl g => exact h.addDecl g
    have all := ih step legal.2
    rwa [List.append_assoc] at all

end Draft

theorem Draft.enrolls_foldl {items : List Item} (legal : LegalItems .initial items) :
    (items.foldl add initial).Enrolls items := by
  simpa using enrolls_initial.foldl legal

theorem Program.Legal.enrolls {p : Program} (legal : p.Legal) : p.draft.Enrolls p.items := by
  have all := Draft.enrolls_foldl legal.1
  refine ⟨all.covers, all.scalars, all.functions, all.data, ?_⟩
  rw [← all.count]
  exact List.length_modify _ _ _

/-! ### Functions -/

mutual

/-- The declarations of a statement, in whatever blocks they stand. -/
def Stmt.decls : Stmt → List Decl
  | .decl d => [d]
  | .cond c => c.decls
  | .loop _ body => body.decls
  | .block b => b.decls
  | .ret _ _ | .empty | .expr _ => []

/-- The declarations of a block. -/
def Block.decls : Block → List Decl
  | .close | .cutOff _ => []
  | .stmt s rest => s.decls ++ rest.decls

/-- The declarations of a conditional statement. -/
def IfChain.decls : IfChain → List Decl
  | .mk _ body otherwise => body.decls ++ otherwise.decls

/-- The declarations of what follows a conditional block. -/
def Else.decls : Else → List Decl
  | .absent => []
  | .block b => b.decls
  | .chain c => c.decls

end

mutual

theorem Stmt.length_scope (σ : List String) : (s : Stmt) → (s.scope σ).length = σ.length + s.decls.length
  | .decl _ => rfl
  | .cond c => c.length_scope σ
  | .loop _ body => body.length_scope σ
  | .block b => b.length_scope σ
  | .ret _ _ | .empty | .expr _ => rfl

theorem Block.length_scope (σ : List String) : (b : Block) → (b.scope σ).length = σ.length + b.decls.length
  | .close | .cutOff _ => rfl
  | .stmt s rest => by
    rw [Block.scope, rest.length_scope, s.length_scope, Block.decls, List.length_append, Nat.add_assoc]

theorem IfChain.length_scope (σ : List String) :
    (c : IfChain) → (c.scope σ).length = σ.length + c.decls.length
  | .mk _ body otherwise => by
    rw [IfChain.scope, otherwise.length_scope, body.length_scope, IfChain.decls, List.length_append,
      Nat.add_assoc]

theorem Else.length_scope (σ : List String) : (o : Else) → (o.scope σ).length = σ.length + o.decls.length
  | .absent => rfl
  | .block b => b.length_scope σ
  | .chain c => c.length_scope σ

end

/-- What a function has on the stack. -/
def FnItem.shape (f : FnItem) : Shape :=
  ⟨f.params.length, f.body.decls.length, f.ret⟩

/-- A slot is reserved for every declaration of the body. -/
theorem FnItem.Legal.length_locals {d : Draft} {f : FnItem} (legal : f.Legal d) :
    (d.infoOf f).locals.length = f.body.decls.length := by
  have behind := (legal.body.isAt legal.isAt_start).locals
  rw [f.body.length_scope, f.length_scope] at behind
  exact Nat.add_left_cancel behind

/-- The operands of a function spell what its body refers to. -/
theorem Program.Legal.spells_function {p : Program} (legal : p.Legal) {before after : List Item} {f : FnItem}
    (items : p.items = before ++ .fn f :: after) :
    (rosterOf p.items).Spells f.shape ((before.foldl Draft.add .initial).infoOf f).body
      (f.body.references f.scope (before.flatMap Item.texts).length) := by
  have parts := legal.1
  rw [items] at parts
  obtain ⟨first, own, -⟩ := parts.append
  have enrolls := Draft.enrolls_foldl first
  have covers := (enrolls.addFn own).covers.append after
  rw [(Draft.addFn_eq own).1, List.append_assoc, List.singleton_append, ← items] at covers
  have places := places_texts before (.fn f) after
  rw [← items] at places
  have start := own.isAt_start
  rw [enrolls.length_data] at start
  have room : (f.body.scope f.scope).length ≤ f.params.length + f.body.decls.length := by
    rw [f.body.length_scope, f.length_scope]
  have body := f.body.spells_gen covers start own.body room places
  refine body.tail ?_
  unfold FnItem.epilogue
  split
  · exact .op rfl
  · exact .nil

/-! ### The function that a program starts in -/

/-- What the function refers to that a program starts in, in front of the call of `main`: parts of the
program that stand behind `k` string literals. -/
def Item.startReferences (k : Nat) : List Item → List Reference
  | [] => []
  | .fn f :: rest => Item.startReferences (k + f.body.texts.length) rest
  | .decl g :: rest =>
    (g.init.elim [] fun e => .global g.name.name :: e.references [] k)
      ++ Item.startReferences (k + g.texts.length) rest

/-- What the function has on the stack that a program starts in. -/
def Shape.start : Shape :=
  ⟨0, 0, .void⟩

theorem Draft.agrees_env {d : Draft} {r : Roster} (covers : r.Covers d.outer) : d.env.Agrees r .start [] where
  ret := rfl
  room := Nat.zero_le _
  own _ mem := nomatch mem
  outer _ _ _ found := covers _ _ (Layer.mem_of_lookup found)

theorem Decl.spells_globalCode {d : Draft} {before : List Item} (h : d.Enrolls before) {g : Decl}
    (fits : g.Fits d.env) (after : List Item) :
    (rosterOf (before ++ .decl g :: after)).Spells .start (g.globalCode d.env d.data.length)
      (g.init.elim [] fun e => .global g.name.name :: e.references [] (before.flatMap Item.texts).length) := by
  have places := places_texts before (.decl g) after
  rw [← h.length_data] at places
  -- the variable itself stands behind the literals of its initial value
  have slot : (rosterOf (before ++ .decl g :: after)).globals[d.data.length + g.texts.length]?
      = some (.scalar g.name.name g.isConst) := by
    rw [h.length_data, globals_rosterOf_append]
    simp [Item.registrations]
  unfold Decl.globalCode
  cases init : g.init with
  | none => exact .nil
  | some e =>
    obtain ⟨ty, typed, -⟩ := fits.2.2 e init
    have texts : Item.texts (.decl g) = e.texts := by rw [Item.texts, Decl.texts, init]; rfl
    rw [texts] at places
    have agrees := Draft.agrees_env (h.covers.append (.decl g :: after))
    exact .cons (.global slot) ((e.spells_code agrees (by rw [typed]; rfl) places).tail (.op rfl))

/-- The operands of the function that a program starts in spell what the initial values refer to. -/
theorem Item.spells_startCode {d : Draft} {before items : List Item} (h : d.Enrolls before)
    (legal : LegalItems d items) :
    (rosterOf (before ++ items)).Spells .start (Item.startCode d items)
      (Item.startReferences (before.flatMap Item.texts).length items) := by
  induction items generalizing d before with
  | nil => exact .nil
  | cons i rest ih =>
    have next : ∀ {d' : Draft}, d'.Enrolls (before ++ [i]) → LegalItems d' rest →
        (rosterOf (before ++ i :: rest)).Spells .start (Item.startCode d' rest)
          (Item.startReferences ((before.flatMap Item.texts).length + i.texts.length) rest) := by
      intro d' enrolls legal'
      have spells := ih enrolls legal'
      rwa [List.append_assoc, List.singleton_append, List.flatMap_append, List.length_append,
        List.flatMap_singleton] at spells
    cases i with
    | fn f => exact next (h.addFn legal.1) legal.2
    | decl g => exact (Decl.spells_globalCode h legal.1.1 rest).append (next (h.addDecl g) legal.2)

end CZero
