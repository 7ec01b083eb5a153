import CZero.Proofs.Static.Legal

/-!
# Accepted programs

A source whose tokens are a sentence has one tree, and analysis accepts it exactly if the tree keeps the
static rules.

    generation              checks in order              the rules of the tree
    d.outer, P.env     ->   names so far            ->   names before a place in the list of parts
    a name is new      ->   it brings a new name    ->   all names are different
-/

namespace CZero

open Static

/-! ### Parts of a program -/

/-- A function keeps the static rules, with the names of `g` in sight. -/
structure FnItem.IsSound (g : Glossary) (f : FnItem) : Prop where
  params : ∀ q ∈ f.params, q.type.IsValueType
  ret : ∃ type, f.type = .ok type ∧ type.IsResultType
  clauses : ∀ earlier c later, f.body.clauses = earlier ++ c :: later →
    c.IsSound ⟨ownBehind f.params earlier, (Item.fn f).entry :: g⟩ (some f.ret)
  locals : (ownBehind f.params f.body.clauses).IsClear

/-- A part of a program keeps the static rules, with the names of `g` in sight. -/
def Item.IsSound (g : Glossary) : Item → Prop
  | .fn f => f.IsSound g
  | .decl d => (Clause.decl d).IsSound ⟨[], g⟩ none

theorem FnItem.glossary_layer (ps : List Param) (index : Nat) (l : Layer) :
    (FnItem.layer index l ps).glossary = (ps.map Param.entry).reverse ++ l.glossary := by
  induction ps generalizing index l with
  | nil => rfl
  | cons q ps ih =>
    rw [FnItem.layer, ih, List.map_cons, List.reverse_cons, List.append_assoc]
    rfl

/-- Where the body of a function begins, its parameters are seen, and the function itself. -/
theorem Draft.shows_start (d : Draft) (f : FnItem) :
    (d.start f).Shows ⟨ownBehind f.params [], (Item.fn f).entry :: d.outer.glossary⟩ f.ret where
  sight := by
    rw [Draft.start, Names.sight, Option.getD_some, FnItem.glossary_layer]
    simp [ownBehind, Layer.glossary, Item.entry, Binding.role]
  ret := rfl
  inside := rfl

theorem Static.Sight.behind_ownBehind (params : List Param) (g : Glossary) (cs : List Clause) :
    Sight.behind ⟨ownBehind params [], g⟩ cs = ⟨ownBehind params cs, g⟩ := by
  simp [Sight.behind, ownBehind]

theorem Draft.glossary_add (d : Draft) (i : Item) : (d.add i).outer.glossary = i.entry :: d.outer.glossary := by
  cases i with
  | fn f =>
    have shows := f.body.shows_gen (d.shows_start f)
    rw [Sight.behind_ownBehind] at shows
    exact congrArg Sight.globals shows.sight
  | decl g => rfl

theorem FnItem.legal_iff {d : Draft} {f : FnItem} (whole : (Item.fn f).IsWhole) :
    f.Legal d ↔ f.IsSound d.outer.glossary ∧ f.name.name ∉ d.outer.glossary.map Prod.fst := by
  have names : (ownBehind f.params []).map Prod.fst = (f.params.map (·.name.name)).reverse := by
    simp [ownBehind, Param.entry]
  have fresh : d.outer.lookup f.name.name = none ↔ f.name.name ∉ d.outer.glossary.map Prod.fst :=
    Layer.lookup_eq_none_iff
  have distinct : (ownBehind f.params []).IsClear ↔ (f.params.map (·.name.name)).Nodup := by
    rw [Glossary.IsClear, names, List.nodup_reverse]
  have body : f.body.Legal (d.start f) ↔ InOrder _ _ _ _ := f.body.legal_iff (d.shows_start f) whole.2
  have behind : ∀ cs : List Clause,
      (cs.filterMap Clause.brings).reverse ++ ownBehind f.params [] = ownBehind f.params cs := by
    simp [ownBehind]
  constructor
  · rintro ⟨params, ⟨type, eq, isType⟩, new, nodup, legal⟩
    obtain ⟨clauses, locals⟩ := (inOrder_iff (distinct.2 nodup)).1 (body.1 legal)
    simp only [behind] at clauses locals
    exact ⟨⟨fun q mem => Ident.isValueType_iff.1 (params q mem), ⟨type, eq, Ident.isResultType_iff.1 isType⟩,
      clauses, locals⟩, fresh.1 new⟩
  · rintro ⟨⟨params, ⟨type, eq, isType⟩, clauses, locals⟩, new⟩
    have clear : (ownBehind f.params []).IsClear := by
      rw [← behind, Glossary.IsClear, List.map_append] at locals
      exact locals.of_append_right
    refine ⟨fun q mem => Ident.isValueType_iff.2 (params q mem), ⟨type, eq, Ident.isResultType_iff.2 isType⟩,
      fresh.2 new, distinct.1 clear, body.2 ((inOrder_iff clear).2 ?_)⟩
    simp only [behind]
    exact ⟨clauses, locals⟩

/-- A part of a program is legal exactly if it keeps the static rules and brings a new name. -/
theorem Item.legal_iff {d : Draft} {i : Item} (whole : i.IsWhole) :
    i.Legal d ↔ i.IsSound d.outer.glossary ∧ i.entry.1 ∉ d.outer.glossary.map Prod.fst := by
  cases i with
  | fn f => exact f.legal_iff whole
  | decl g =>
    have fresh : d.env.declares g.name.name = false ↔ g.name.name ∉ d.outer.glossary.map Prod.fst :=
      Names.declares_eq_false_iff
    rw [Item.Legal, g.fits_iff whole none, fresh]
    rfl

/-- Parts of a program are legal exactly if each keeps the static rules behind those before it. -/
theorem legalItems_iff {d : Draft} {items : List Item} (whole : ∀ i ∈ items, i.IsWhole) :
    LegalItems d items ↔ InOrder (fun g i => i.IsSound g) (fun i => some i.entry) d.outer.glossary items := by
  induction items generalizing d with
  | nil => exact Iff.rfl
  | cons i rest ih =>
    obtain ⟨head, tail⟩ := List.forall_mem_cons.1 whole
    rw [LegalItems, InOrder, Item.legal_iff head, ih tail, Draft.glossary_add]
    simp [and_assoc]

theorem Draft.glossary_initial : Draft.initial.outer.glossary = reserved := by
  decide +kernel

/-! ### Programs -/

theorem Program.legal_iff {p : Program} (whole : p.IsWhole) : p.Legal ↔
    (∀ before i after, p.items = before ++ i :: after → i.IsSound (globalsBehind before)) ∧
      (globalsBehind p.items).IsClear := by
  have clear : reserved.IsClear := by
    unfold Glossary.IsClear
    decide +kernel
  rw [Program.Legal, legalItems_iff whole.1, Draft.glossary_initial, inOrder_iff clear]
  simp [whole.2, globalsBehind]

theorem Static.globalsBehind_concat (items : List Item) (i : Item) :
    globalsBehind (items ++ [i]) = i.entry :: globalsBehind items := by
  simp [globalsBehind]

namespace Program.KeepsRules

variable {p : Program}

/-- Every clause of a program that keeps the rules does. -/
theorem isSound (h : p.KeepsRules) {σ : Sight} {ret : Option Ty} {c : Clause} (occurs : p.Occurs σ ret c) :
    c.IsSound σ ret := by
  constructor
  · intro e mem part inside
    have evaluates : p.Evaluates σ part := ⟨ret, c, occurs, e, mem, inside⟩
    cases part with
    | load name => exact h.reads σ name evaluates
    | assign name e => exact ⟨h.targets σ name e evaluates, h.assigned σ name e evaluates⟩
    | call name as => exact h.calls σ name as evaluates
    | cast e type => exact h.castTypes σ e type evaluates
    | _ => trivial
  · cases c with
    | expr e => trivial
    | decl d => exact ⟨h.variableTypes σ ret d occurs, h.initial σ ret d occurs⟩
    | ret value =>
      cases value with
      | none =>
        rintro ty ⟨⟩
        exact h.emptyReturns σ ty occurs
      | some e =>
        rintro ty ⟨⟩
        exact h.returns σ ty e occurs

end Program.KeepsRules

/-- A program is legal exactly if it keeps the static rules. -/
theorem Program.legal_iff_keepsRules {p : Program} (whole : p.IsWhole) : p.Legal ↔ p.KeepsRules := by
  rw [p.legal_iff whole]
  constructor
  · rintro ⟨items, globals⟩
    have sound : ∀ {σ ret c}, p.Occurs σ ret c → c.IsSound σ ret := by
      rintro σ ret c (⟨eq⟩ | ⟨eq, split⟩)
      · exact items _ _ _ eq
      · rw [globalsBehind_concat]
        exact (items _ _ _ eq).clauses _ _ _ split
    have parts : ∀ {σ e}, p.Evaluates σ e → e.IsSound σ := by
      rintro σ e ⟨ret, c, occurs, whole, mem, inside⟩
      exact (sound occurs).1 whole mem e inside
    have fns : ∀ f, .fn f ∈ p.items → ∃ g, f.IsSound g := by
      intro f mem
      obtain ⟨before, after, eq⟩ := List.append_of_mem mem
      exact ⟨_, items _ _ _ eq⟩
    exact {
      globals
      locals := fun f mem => (fns f mem).choose_spec.locals
      variableTypes := fun σ ret d occurs => (sound occurs).2.1
      paramTypes := fun f mem => (fns f mem).choose_spec.params
      resultTypes := fun f mem => (fns f mem).choose_spec.ret
      castTypes := fun σ e type evaluates => parts evaluates
      calls := fun σ name as evaluates => parts evaluates
      reads := fun σ name evaluates => parts evaluates
      targets := fun σ name e evaluates => (parts evaluates).1
      assigned := fun σ name e evaluates => (parts evaluates).2
      initial := fun σ ret d occurs => (sound occurs).2.2
      emptyReturns := fun σ ret occurs => (sound occurs).2 ret rfl
      returns := fun σ ret e occurs => (sound occurs).2 ret rfl }
  · intro h
    refine ⟨fun before i after eq => ?_, h.globals⟩
    have mem : i ∈ p.items := by simp [eq]
    cases i with
    | decl d => exact h.isSound (.global eq)
    | fn f =>
      refine ⟨h.paramTypes f mem, h.resultTypes f mem, fun earlier c later split => ?_, h.locals f mem⟩
      rw [← globalsBehind_concat]
      exact h.isSound (.inside eq split)

theorem exists_analyse_iff {source : String} :
    (∃ a, analyse source = .ok a) ↔ (Program.ofSource source).Legal := by
  have spec := (Program.ofSource source).analyse_spec
  unfold analyse
  cases eq : (Program.ofSource source).analyse with
  | ok a =>
    rw [eq] at spec
    exact iff_of_true ⟨a, rfl⟩ spec.1
  | error d =>
    rw [eq] at spec
    exact iff_of_false nofun spec

/-- A source whose tokens are a sentence has one tree, and analysis accepts it exactly if that tree keeps
the static rules. -/
theorem analyse_keepsRules {source : String} {ts : List Token} (h : tokenize source = .ok ts)
    (sentence : IsSentence ts) :
    ∃ p : Program, p.IsTreeOf source ∧ ((∃ a, analyse source = .ok a) ↔ p.KeepsRules) := by
  have whole : (Program.ofSource source).IsWhole := (isWhole_iff_isSentence h).2 sentence
  refine ⟨.ofSource source, whole.isTreeOf, ?_⟩
  rw [exists_analyse_iff, Program.legal_iff_keepsRules whole]

set_option maxRecDepth 100000 in
/-- A local variable may have the name of a global, which its own initial value still reads, and a block
may be left with its variables in sight. -/
theorem analyse_keepsRules_shadow : ∃ source ts,
    source = "let a: int = 2; fn f(b: int) -> int { let a: int = a + b; if a { let c: int = f(a); } return c; }" ∧
      tokenize source = .ok ts ∧ IsSentence ts ∧ ∃ p : Program, p.IsTreeOf source ∧ p.KeepsRules := by
  obtain ⟨source, eq⟩ : ∃ source, source =
      "let a: int = 2; fn f(b: int) -> int { let a: int = a + b; if a { let c: int = f(a); } return c; }" :=
    ⟨_, rfl⟩
  have tokens : (tokenize source).toOption.isSome := by
    subst eq
    decide +kernel
  have accepted : (analyse source).toOption.isSome := by
    subst eq
    decide +kernel
  cases ht : tokenize source with
  | error d =>
    rw [ht] at tokens
    cases tokens
  | ok ts =>
    cases ha : analyse source with
    | error d =>
      rw [ha] at accepted
      cases accepted
    | ok a =>
      have sentence : IsSentence ts := (isWhole_iff_isSentence ht).1 (exists_analyse_iff.1 ⟨a, ha⟩).isWhole
      obtain ⟨p, tree, keeps⟩ := analyse_keepsRules ht sentence
      exact ⟨source, ts, eq, ht, sentence, p, tree, keeps.1 ⟨a, ha⟩⟩

end CZero
