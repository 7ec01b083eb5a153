import CZero.Proofs.Lowering.Stmt

/-!
# What lowering a program does

Lowering a program succeeds exactly if the program keeps the static rules. The functions in its table
are then the ones that generation by structure gives, and so are the globals.
-/

namespace CZero

/-- Lowering has done the parts of a program that a draft has. -/
structure Context.Drafted (c : Context) (d : Draft) : Prop where
  table : c.table.Shows ⟨d.env.toNames, d.data, d.fns⟩
  current : c.current = entryIndex
  main : c.main = d.main
  /-- The function that the program starts in has no result and no local variables. -/
  entry : ∃ f, d.fns[entryIndex]? = some f ∧ f.ret = .void ∧ f.locals = []
  mainKnown : ∀ k ∈ d.main, k < d.fns.length

theorem Context.drafted_initial : Context.initial.Drafted .initial :=
  ⟨Table.shows_initial, rfl, rfl, ⟨_, rfl, rfl, rfl⟩, nofun⟩

namespace Lower

variable {c : Context} {d : Draft}

/-! ### Functions -/

theorem meets_paramTypes (ps : List Param) :
    (paramTypes ps).Meets c (∀ p ∈ ps, p.type.IsStorable) fun types c' =>
      c = c' ∧ types = ps.map (·.type.ty) := by
  induction ps with
  | nil => exact meets_pure (by simp) ⟨rfl, rfl⟩
  | cons p ps ih =>
    rw [paramTypes]
    refine (meets_valueType p.name p.type).bind (· p List.mem_cons_self) ?_
    rintro _ _ storable ⟨rfl, rfl⟩
    refine ih.bind (fun all q hq => all q (List.mem_cons_of_mem p hq)) ?_
    rintro _ _ rest ⟨rfl, rfl⟩
    exact meets_pure (by simpa using ⟨storable, rest⟩) ⟨rfl, rfl⟩

/-- Parameters can be declared if their names are different and new. -/
theorem meets_declareParams {outer inner : Layer} {data : List Global} {fns : List FnInfo}
    (h : c.table.Shows ⟨⟨outer, some inner⟩, data, fns⟩) (index : Nat) (ps : List Param) :
    (declareParams 1 index (ps.map fun p => (p, p.type.ty))).Meets c
      ((ps.map (·.name.name)).Nodup ∧ ∀ p ∈ ps, inner.lookup p.name.name = none) fun _ c' =>
        c'.current = c.current ∧ c'.main = c.main ∧
          c'.table.Shows ⟨⟨outer, some (FnItem.layer index inner ps)⟩, data, fns⟩ := by
  induction ps generalizing c index inner with
  | nil => exact meets_pure (by simp) ⟨rfl, rfl, h⟩
  | cons p ps ih =>
    simp only [List.map_cons, declareParams, Symbol.ofVariable]
    refine (meets_declare_variable h (by simp) rfl).bind ?_ ?_
    · rintro ⟨-, new⟩
      simpa [Names.declares] using new p List.mem_cons_self
    rintro _ c₁ new ⟨current, main, shows⟩
    have new : inner.lookup p.name.name = none := by simpa [Names.declares] using new
    simp only [Option.isSome_some, if_true, List.append_nil] at shows
    refine (ih shows (index + 1)).imp ?_ ?_
    · -- a name is new behind `p` if it was new before and is not that of `p`
      have behind (q : Param) : List.lookup q.name.name ((p.name.name, .var (.arg index) p.type.ty
          p.isConst) :: inner) = none ↔ p.name.name ≠ q.name.name ∧ inner.lookup q.name.name = none := by
        rw [List.lookup_cons]
        by_cases eq : q.name.name = p.name.name
        · simp [eq]
        · simp [beq_eq_false_iff_ne.2 eq, Ne.symm eq]
      simp only [behind, List.nodup_cons, List.mem_map, not_exists, not_and,
        List.forall_mem_cons, new, true_and]
      constructor
      · rintro ⟨distinct, all⟩
        exact ⟨⟨fun q hq eq => (all q hq).1 eq.symm, distinct⟩, fun q hq => (all q hq).2⟩
      · rintro ⟨⟨first, distinct⟩, all⟩
        exact ⟨distinct, fun q hq => ⟨fun eq => first q hq eq.symm, all q hq⟩⟩
    · rintro _ c₂ - ⟨current', main', shows'⟩
      exact ⟨current'.trans current, main'.trans main, shows'⟩

/-- A function can be declared if its name is new. -/
theorem meets_declare_function {v : View} (h : c.table.Shows v) (name : Ident) {f : FnInfo}
    (index : f.index = v.fns.length) (outside : v.names.inner = none) :
    (declare name (.ofFunction name.name f)).Meets c (v.names.declares name.name = false) fun _ c' =>
      c'.current = c.current ∧ c'.main = c.main ∧ c'.table.Shows
        { v with names := v.names.bind name.name (.fn f.index f.ret), fns := v.fns ++ [f] } := by
  have declared := h.declare_function name.name index outside
  by_cases taken : v.names.declares name.name
  · rw [if_pos taken] at declared
    refine (meets_update (P := False) (Q := fun _ _ => True) ?_).bind ?_ fun _ _ no _ => no.elim
    · rw [declared]
      exact not_false
    · simp [taken]
  · rw [if_neg taken] at declared
    obtain ⟨id, t, run, shows⟩ := declared
    refine (meets_update (P := True) (Q := fun _ c' => c' = { c with table := t }) ?_).always ?_
    · rw [run]
      exact ⟨trivial, rfl⟩
    rintro _ _ rfl
    exact meets_pure (by simpa using taken) ⟨rfl, rfl, shows⟩

/-- Closing its scope completes a function. -/
theorem drafted_closeScope (h : c.Drafted d) {f : FnItem} {c' : Context} {r : Point}
    (inside : (f.body.gen (d.start f)).2.env.inner.isSome) (env : r.env = (f.body.gen (d.start f)).2.env)
    (data : r.data = (f.body.gen (d.start f)).2.data)
    (locals : r.locals = (f.body.gen (d.start f)).2.locals)
    (wrote : c'.Wrote ⟨d.fns, [], (d.addFn f).main⟩ (.declared d.fns.length f.ret f.signature)
      ((f.body.gen (d.start f)).1 ++ f.epilogue) r) :
    Context.Drafted { c' with table := (c'.table.closeScope 1).2, current := entryIndex } (d.addFn f) := by
  obtain ⟨entry, hentry, entry_ret, entry_locals⟩ := h.entry
  refine ⟨?_, rfl, wrote.main, ⟨entry, ?_, entry_ret, entry_locals⟩, ?_⟩
  · have closed := wrote.table.closeScope (env ▸ inside)
    simpa [Draft.addFn, Draft.env, env, data, locals, FnInfo.write, FnInfo.declared] using closed
  · rw [Draft.addFn, List.getElem?_append_left (List.getElem?_eq_some_iff.1 hentry).1, hentry]
  · intro k hk
    simp only [Draft.addFn, List.length_append, List.length_singleton] at hk ⊢
    split at hk
    · cases hk
      exact Nat.lt_succ_self _
    · exact Nat.lt_succ_of_lt (h.mainKnown k hk)

/-- Lowering a function adds it to the draft. -/
theorem meets_fnItem (h : c.Drafted d) (f : FnItem) :
    (fnItem f).Meets c (f.Legal d) fun _ c' => c'.Drafted (d.addFn f) := by
  rw [fnItem]
  refine (meets_paramTypes f.params).bind (·.params) ?_
  rintro _ _ params ⟨rfl, rfl⟩
  cases ht : f.type with
  | error fault =>
    refine meets_throw_bind fun legal => ?_
    obtain ⟨type, eq, -⟩ := legal.ret
    rw [ht] at eq
    cases eq
  | ok type =>
  have hret : f.ret = type.ty := by rw [FnItem.ret, ht]
  refine (meets_resultType type).bind ?_ ?_
  · intro legal
    obtain ⟨type', eq, known⟩ := legal.ret
    rw [ht, Except.ok.injEq] at eq
    rwa [eq]
  rintro ty _ known ⟨rfl, eq⟩
  obtain rfl : ty = f.ret := by rw [hret, Ident.ty, eq, Option.getD_some]
  refine meets_get ?_
  have signature : (f.params.map (·.name.name)).zip (f.params.map (·.type.ty)) = f.signature :=
    List.zip_map' ..
  simp only [h.table.functionCount, signature, ← List.map_prod_left_eq_zip]
  refine (meets_declare_function h.table f.name rfl rfl).bind ?_ ?_
  · intro legal
    simpa [Names.declares, Draft.env] using legal.fresh
  rintro _ c₁ fresh ⟨-, main, shows⟩
  refine meets_modify (meets_get ?_)
  have opened := shows.openScope rfl
  simp only [opened.layer_eq, Option.isSome_some, if_true]
  refine (meets_declareParams (c := { c₁ with
    table := c₁.table.openScope
    main := if f.name.name = mainName then some d.fns.length else c₁.main }) opened 0 f.params).bind ?_ ?_
  · exact fun legal => ⟨legal.distinct, fun p _ => rfl⟩
  rintro _ c₂ ⟨distinct, -⟩ ⟨-, main', shows'⟩
  refine meets_modify ?_
  -- the body is appended to the new function, behind all others
  have start : Context.At ⟨d.fns, [], (d.addFn f).main⟩ { c₂ with current := d.fns.length }
      (.declared d.fns.length f.ret f.signature) (d.start f) :=
    ⟨shows', rfl, by rw [main', main, h.main]; rfl, rfl, rfl, rfl⟩
  refine (meets_block f.body start rfl).bind (·.body) fun _ c₃ legal ⟨wrote, inside⟩ => ?_
  have all : f.Legal d := ⟨params, ⟨type, ht, known⟩, by simpa [Names.declares, Draft.env] using fresh,
    distinct, legal⟩
  by_cases void : f.ret = .void
  · simp only [void, if_true]
    refine (meets_emit wrote .ret).always fun _ c₄ h₄ =>
      ⟨all, drafted_closeScope h (r := (f.body.gen (d.start f)).2.emit [.plain .ret]) inside rfl rfl rfl ?_⟩
    rw [FnItem.epilogue, if_pos void]
    exact h₄.trans
  · simp only [void, if_false]
    refine ⟨all, drafted_closeScope h inside rfl rfl rfl ?_⟩
    rwa [FnItem.epilogue, if_neg void, List.append_nil]

/-! ### Programs -/

/-- Between functions, code goes to the function that the program starts in. -/
theorem drafted_at (h : c.Drafted d) : ∃ before entry after,
    d.fns = before ++ entry :: after ∧ before.length = entryIndex ∧ entry.locals = [] ∧
      c.At ⟨before, after, d.main⟩ entry ⟨d.env, [], d.data, entry.body.getLast?.map (·.opcode)⟩ := by
  obtain ⟨entry, hentry, entry_ret, entry_locals⟩ := h.entry
  obtain ⟨lt, eq⟩ := List.getElem?_eq_some_iff.1 hentry
  have split : d.fns = d.fns.take entryIndex ++ entry :: d.fns.drop (entryIndex + 1) := by
    rw [← eq, ← List.drop_eq_getElem_cons lt, List.take_append_drop]
  have length : (d.fns.take entryIndex).length = entryIndex := List.length_take_of_le (Nat.le_of_lt lt)
  refine ⟨_, entry, _, split, length, entry_locals, ?_, ?_, h.main, entry_ret, entry_locals.symm ▸ rfl, rfl⟩
  · rw [← split]
    exact h.table
  · rw [h.current, length]

/-- Code that goes to the function that the program starts in is code of the draft. -/
theorem drafted_extend (h : c.Drafted d) {before after : List FnInfo} {entry : FnInfo}
    (split : d.fns = before ++ entry :: after) (length : before.length = entryIndex)
    (ret : entry.ret = .void) (locals : entry.locals = []) {c' : Context} {d' : Draft} {q : Point}
    {code : List Instr} (wrote : c'.Wrote ⟨before, after, d.main⟩ entry code q) (no_locals : q.locals = [])
    (names : q.env.toNames = d'.env.toNames) (data : q.data = d'.data)
    (fns : d'.fns = d.fns.modify entryIndex (·.extend code)) (main : d'.main = d.main) : c'.Drafted d' := by
  have same : entry.write q code = entry.extend code := by
    rw [FnInfo.write, FnInfo.extend, no_locals, ← locals]
  have fns' : d'.fns = before ++ entry.extend code :: after := by
    rw [fns, split, ← length, Context.At.modify_append]
  refine ⟨?_, wrote.current.trans length, wrote.main.trans main.symm,
    ⟨entry.extend code, ?_, ret, locals⟩, ?_⟩
  · rw [← names, ← data, fns', ← same]
    exact wrote.table
  · rw [fns', ← length, List.getElem?_append_right (Nat.le_refl _), Nat.sub_self,
      List.getElem?_cons_zero]
  · rw [fns, main, List.length_modify]
    exact h.mainKnown

/-- Lowering a global declaration adds it to the draft. -/
theorem meets_globalDecl (h : c.Drafted d) (g : Decl) :
    (decl g).Meets c (g.Fits d.env ∧ d.env.declares g.name.name = false) fun _ c' =>
      c'.Drafted (d.addDecl g) := by
  obtain ⟨before, entry, after, split, length, locals, here⟩ := drafted_at h
  refine (meets_decl_global here rfl g).imp .rfl fun _ c' _ wrote => ?_
  exact drafted_extend h split length here.ret locals wrote rfl rfl rfl rfl rfl

theorem meets_items (items : List Item) {c : Context} {d : Draft} (h : c.Drafted d) :
    (Lower.items items).Meets c (LegalItems d items) fun _ c' => c'.Drafted (items.foldl Draft.add d) := by
  induction items generalizing c d with
  | nil => exact meets_pure trivial h
  | cons i rest ih =>
    cases i with
    | fn f =>
      rw [Lower.items]
      refine (meets_fnItem h f).bind And.left fun _ c₁ legal h₁ => ?_
      exact (ih h₁).imp ⟨fun legal' => ⟨legal, legal'⟩, And.right⟩ fun _ _ _ h₂ => h₂
    | decl g =>
      rw [Lower.items]
      refine (meets_globalDecl h g).bind And.left fun _ c₁ legal h₁ => ?_
      exact (ih h₁).imp ⟨fun legal' => ⟨legal, legal'⟩, And.right⟩ fun _ _ _ h₂ => h₂

/-- The call of `main` is the last code. -/
theorem meets_callMain (h : c.Drafted d) : callMain.Meets c True fun _ c' => c'.Drafted d.finish := by
  obtain ⟨before, entry, after, split, length, locals, here⟩ := drafted_at h
  have done {c' : Context} {code : List Instr} {q : Point} (eq : d.mainCall = code)
      (wrote : c'.Wrote ⟨before, after, d.main⟩ entry code q) (no_locals : q.locals = [])
      (names : q.env.toNames = d.env.toNames) (data : q.data = d.data) : c'.Drafted d.finish :=
    drafted_extend h split length here.ret locals wrote no_locals names data (by rw [← eq]; rfl) rfl
  refine meets_get ?_
  rw [h.main]
  cases hm : d.main with
  | none => exact meets_pure trivial (done (by rw [Draft.mainCall, hm]) here.wrote rfl rfl rfl)
  | some main =>
    obtain ⟨f, hf⟩ : ∃ f, d.fns[main]? = some f :=
      ⟨_, List.getElem?_eq_getElem (h.mainKnown main hm)⟩
    refine (meets_update (P := True) (Q := fun info c' => f = info ∧ c = c') ?_).always ?_
    · have function := h.table.function main
      simp only [hf] at function
      simp only [function, bind, Except.bind, pure, Except.pure]
      exact ⟨trivial, trivial, trivial⟩
    rintro _ _ ⟨rfl, rfl⟩
    refine (meets_emitWith here .stackalloc _).always fun _ c₁ h₁ => ?_
    refine (meets_emitWith h₁ .call _).imp .rfl fun _ c₂ _ h₂ => done ?_ h₂.trans rfl rfl rfl
    simp [Draft.mainCall, hm, hf]

/-- Lowering a program succeeds exactly if the program keeps the static rules, and makes its draft. -/
theorem meets_program (p : Program) :
    (program p).Meets .initial p.Legal fun _ c => c.Drafted p.draft := by
  refine (meets_items p.items Context.drafted_initial).bind And.left fun _ c₁ legal h₁ => ?_
  cases hf : p.finish with
  | error d =>
    refine meets_throw fun legal => ?_
    obtain ⟨_, position, eq⟩ := legal
    rw [hf] at eq
    cases eq
  | ok position =>
    refine (meets_callMain h₁).always fun _ c₂ h₂ => meets_pure ⟨legal, position, hf⟩ h₂

end Lower

/-- The analysis of a program holds its draft. -/
structure Analysis.Matches (a : Analysis) (d : Draft) : Prop where
  functions : a.table.allFunctions = d.fns
  globals : a.table.globals.map globalOf = d.data
  main : a.main = d.main

/-- Analysis succeeds exactly on programs that keep the static rules. -/
theorem Program.analyse_spec (p : Program) :
    match p.analyse with
    | .ok a => p.Legal ∧ a.Matches p.draft
    | .error _ => ¬p.Legal := by
  have meets := Lower.meets_program p
  unfold Lower.Meets at meets
  unfold Program.analyse
  simp only [StateT.run, bind, Except.bind]
  split at meets
  · next eq =>
    rw [eq]
    exact ⟨meets.1, meets.2.table.allFunctions, meets.2.table.data, meets.2.main⟩
  · next eq =>
    rw [eq]
    exact meets

end CZero
