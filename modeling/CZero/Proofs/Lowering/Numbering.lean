import CZero.Proofs.Lowering.Roster

/-!
# Compiled programs are numbered as their roster

The analysis gives out numbers while it reads a source: it counts the symbols that are there. The image
is made later, by listing the table. Main statement (`compile_numbers`): both agree on every source that
compiles. The globals are those of the roster followed by the names of all functions, each function stands
at its place of the roster, and what its code refers to has the number that it has there.
-/

namespace CZero

/-! ### Names of functions -/

/-- The names of all functions in the order of their numbers, the library first. -/
def Roster.names (r : Roster) : List String :=
  LibraryFn.all.map (·.name) ++ r.functions.map Prod.fst

theorem Roster.Has.getElem?_names {r : Roster} {name : String} {k : Nat} {ret : Ty}
    (h : r.Has name (.fn k ret)) : r.names[k]? = some name := by
  unfold Roster.names
  rcases h with ⟨f, at_k, rfl, -⟩ | ⟨le, at_k⟩
  · refine getElem?_append_of_some ?_ _
    rw [List.getElem?_map, at_k, Option.map_some]
  · have library : (LibraryFn.all.map (·.name)).length = entryIndex := rfl
    rw [List.getElem?_append_right (by rw [library]; exact le), library, List.getElem?_map, at_k,
      Option.map_some]

theorem Program.analyse_eq (p : Program) : p.analyse = match Lower.program p .initial with
    | .ok (finish, c) => .ok ⟨c.table, c.main, finish⟩
    | .error d => .error d := by
  rw [analyse, StateT.run]
  cases Lower.program p .initial with
  | ok result => rfl
  | error d => rfl

theorem Program.exists_drafted {p : Program} {a : Analysis} (h : p.analyse = .ok a) :
    ∃ c : Context, c.Drafted p.draft ∧ a.table = c.table ∧ a.main = c.main := by
  have meets := Lower.meets_program p
  unfold Lower.Meets at meets
  rw [Program.analyse_eq] at h
  split at meets
  · next eq =>
    rw [eq] at h
    cases h
    exact ⟨_, meets.2, rfl, rfl⟩
  · next eq =>
    rw [eq] at h
    cases h

theorem mapM_of_forall₂ {α β : Type} {f : α → Except Diagnostic β} {xs : List α} {ys : List β}
    (h : List.Forall₂ (fun x y => f x = .ok y) xs ys) : xs.mapM f = .ok ys := by
  induction h with
  | nil => rfl
  | cons hx _ ih =>
    rw [List.mapM_cons, hx, ih]
    rfl

/-- Every function of an analysis has its name of the roster. -/
theorem Analysis.mapM_nameOf {p : Program} {a : Analysis} (legal : p.Legal) (h : p.analyse = .ok a) :
    p.draft.fns.mapM a.nameOf = .ok ((rosterOf p.items).names.map .ofText) := by
  obtain ⟨c, drafted, table, -⟩ := p.exists_drafted h
  have count : (rosterOf p.items).names.length = p.draft.fns.length := by
    rw [legal.enrolls.count, Roster.names, List.length_append, List.length_map, List.length_map]
    rfl
  refine mapM_of_forall₂ (List.forall₂_iff_get.2 ⟨by rw [List.length_map, count], fun k lt lt' => ?_⟩)
  have at_k := List.getElem?_eq_getElem lt
  obtain ⟨name, found, mem⟩ := drafted.table.functionName? at_k
  have index := drafted.table.index_eq at_k
  rw [index] at mem
  have same := (legal.enrolls.covers name _ mem).getElem?_names
  simp only [List.get_eq_getElem, nameOf, index, table, found, List.getElem_map]
  rw [(List.getElem_eq_iff _).2 same]

/-! ### Functions of the draft -/

/-- The function at a place of the roster stands in the source behind so many others. -/
theorem Item.exists_of_fns {items : List Item} {k : Nat} {f : FnItem} (h : (Item.fns items)[k]? = some f) :
    ∃ before after, items = before ++ .fn f :: after ∧ (Item.fns before).length = k := by
  induction items generalizing k with
  | nil => cases h
  | cons i rest ih =>
    cases i with
    | decl g =>
      obtain ⟨before, after, rfl, count⟩ := ih h
      exact ⟨.decl g :: before, after, rfl, count⟩
    | fn g =>
      cases k with
      | zero =>
        cases h
        exact ⟨[], rest, rfl, rfl⟩
      | succ k =>
        obtain ⟨before, after, rfl, count⟩ := ih h
        exact ⟨.fn g :: before, after, rfl, congrArg (· + 1) count⟩

/-- The number of a function. -/
theorem Program.Legal.length_fns {p : Program} (legal : p.Legal) {before after : List Item} {f : FnItem}
    (items : p.items = before ++ .fn f :: after) :
    (before.foldl Draft.add .initial).fns.length = entryIndex + ((Item.fns before).length + 1) := by
  have parts := legal.1
  rw [items] at parts
  have count := (Draft.enrolls_foldl parts.append.1).count
  rwa [rosterOf, List.length_cons, List.length_map] at count

theorem Program.Legal.getElem?_fns {p : Program} (legal : p.Legal) {before after : List Item} {f : FnItem}
    (items : p.items = before ++ .fn f :: after) :
    p.draft.fns[entryIndex + ((Item.fns before).length + 1)]?
      = some ((before.foldl Draft.add .initial).infoOf f) := by
  have has : p.Has (before.foldl Draft.add .initial) f := ⟨before, after, items, rfl⟩
  rw [← legal.length_fns items]
  exact has.getElem?.1

/-- The functions of an image are the one that the program starts in and those that it declares. -/
theorem Program.Legal.forall_fns {p : Program} (legal : p.Legal) {P : FnInfo → Prop}
    (start : P ((FnInfo.declared entryIndex .void []).extend
      (Item.startCode .initial p.items ++ (p.items.foldl Draft.add .initial).mainCall)))
    (declared : ∀ before f after, p.items = before ++ .fn f :: after →
      P ((before.foldl Draft.add .initial).infoOf f)) : ∀ f ∈ p.draft.fns.drop entryIndex, P f := by
  intro f mem
  obtain ⟨k, at_k⟩ := List.mem_iff_getElem?.1 mem
  rw [List.getElem?_drop] at at_k
  cases k with
  | zero =>
    rw [Nat.add_zero, p.getElem?_entry] at at_k
    cases at_k
    exact start
  | succ k =>
    have lt := (List.getElem?_eq_some_iff.1 at_k).1
    rw [legal.enrolls.count] at lt
    simp only [rosterOf, List.length_cons, List.length_map] at lt
    obtain ⟨before, after, items, count⟩ :=
      Item.exists_of_fns (List.getElem?_eq_getElem (show k < (Item.fns p.items).length by omega))
    have found := legal.getElem?_fns items
    rw [count, at_k] at found
    cases found
    exact declared before _ after items

/-! ### Every operand is there -/

/-- An instruction of code that spells references has no operand, or is a branch, or is for one of them. -/
theorem Roster.Spells.forall_mem {r : Roster} {fr : Shape} {P : Instr → Prop} {code : List Instr}
    {refs : List Reference} (h : r.Spells fr code refs)
    (plain : ∀ op : Opcode, op.hasOperand = false → P (.plain op))
    (branch : ∀ (op : Opcode) (v : Int64), op.isBranch → P (.withOperand op v))
    (resolves : ∀ ref i, r.Resolves fr ref i → P i) : ∀ i ∈ code, P i := by
  induction h with
  | nil => nofun
  | plain op _ ih => exact List.forall_mem_cons.2 ⟨plain _ op, ih⟩
  | branch op _ ih => exact List.forall_mem_cons.2 ⟨branch _ _ op, ih⟩
  | cons i _ ih => exact List.forall_mem_cons.2 ⟨resolves _ _ i, ih⟩

theorem Roster.Spells.isWellFormed {r : Roster} {fr : Shape} {code : List Instr} {refs : List Reference}
    (h : r.Spells fr code refs) : ∀ i ∈ code, i.isWellFormed := by
  refine h.forall_mem (fun op none => ?_) (fun op v isBranch => ?_) fun ref i resolves => ?_
  · simp [Instr.isWellFormed, Instr.plain, none]
  · cases op <;> first | rfl | cases isBranch
  · cases resolves <;> rfl

theorem Program.Legal.spells_start {p : Program} (legal : p.Legal) :
    (rosterOf p.items).Spells .start (Item.startCode .initial p.items) (Item.startReferences 0 p.items) :=
  Item.spells_startCode Draft.enrolls_initial legal.1

/-- The call of `main`: room for its result, then the call by its number. -/
theorem Program.Legal.mainCall_eq {p : Program} (legal : p.Legal) {k : Nat} (main : p.draft.main = some k) :
    ∃ before f after, p.items = before ++ .fn f :: after ∧ f.name.name = mainName ∧
      k = entryIndex + ((Item.fns before).length + 1) ∧
      (p.items.foldl Draft.add .initial).mainCall =
        [.withOperand .stackalloc (Int64.ofNat f.ret.returnSlots),
         .withOperand .call (Int64.ofNat ((Item.fns before).length + 1))] := by
  have main : (p.items.foldl Draft.add .initial).main = some k := main
  obtain none | ⟨before, f, after, items, name, index⟩ := Draft.main_foldl main
  · cases none
  have count := legal.length_fns items
  have has : p.Has (before.foldl Draft.add .initial) f := ⟨before, after, items, rfl⟩
  obtain ⟨found, lt⟩ := has.getElem?
  have own : (p.items.foldl Draft.add .initial).fns[k]? =
      some ((before.foldl Draft.add .initial).infoOf f) := by
    change ((p.items.foldl Draft.add .initial).fns.modify entryIndex _)[_]? = _ at found
    rwa [List.getElem?_modify_ne _ _ (Nat.ne_of_lt lt), ← index] at found
  refine ⟨before, f, after, items, name, index.trans count, ?_⟩
  rw [Draft.mainCall, main]
  simp only [own, Option.elim_some]
  rw [index, count, Nat.add_sub_cancel_left]
  rfl

theorem Program.Legal.functions_eq {p : Program} {before after : List Item} {f : FnItem}
    (items : p.items = before ++ .fn f :: after) :
    (rosterOf p.items).functions[(Item.fns before).length + 1]? = some (f.name.name, f.ret) := by
  rw [items, rosterOf, Item.fns, List.filterMap_append]
  simp [Item.fns, Item.fn?]

theorem Program.Legal.spells_mainCall {p : Program} (legal : p.Legal) {k : Nat}
    (main : p.draft.main = some k) :
    (rosterOf p.items).Spells .start (p.items.foldl Draft.add .initial).mainCall
      [.room mainName, .call mainName] := by
  obtain ⟨before, f, after, items, name, -, code⟩ := legal.mainCall_eq main
  have place := functions_eq items
  rw [name] at place
  rw [code]
  exact .cons (.room place) (.singleton (.call place))

theorem Draft.isWellFormed_mainCall (d : Draft) : ∀ i ∈ d.mainCall, i.isWellFormed := by
  intro i mem
  unfold Draft.mainCall at mem
  split at mem
  · cases mem
  · simp only [List.mem_cons, List.not_mem_nil, or_false] at mem
    rcases mem with rfl | rfl <;> rfl

/-- Whatever is analysed has all its operands. -/
theorem Program.Legal.isWellFormed {p : Program} (legal : p.Legal) :
    ∀ f ∈ p.draft.fns.drop entryIndex, ∀ i ∈ f.body, i.isWellFormed := by
  refine legal.forall_fns ?_ fun before f after items => (legal.spells_function items).isWellFormed
  change ∀ i ∈ Item.startCode .initial p.items ++ (p.items.foldl Draft.add .initial).mainCall, i.isWellFormed
  exact List.forall_mem_append.2 ⟨legal.spells_start.isWellFormed, Draft.isWellFormed_mainCall _⟩

theorem Analysis.functionOf_eq {a : Analysis} {slots : Nat} {f : FnInfo}
    (formed : ∀ i ∈ f.body, i.isWellFormed) : a.functionOf slots f = .ok (f.function slots) := by
  have none : f.body.find? (!·.isWellFormed) = none := by
    rw [List.find?_eq_none]
    intro i mem
    simp [formed i mem]
  rw [functionOf, none]
  rfl

/-- The image of a program that keeps the static rules. -/
def Program.image (p : Program) : Image where
  globals := p.draft.data ++ (rosterOf p.items).names.map .ofText
  functions := (p.draft.fns.drop entryIndex).map (·.function p.draft.data.length)

/-- Whatever is analysed can be assembled, with or without a `main`. -/
theorem Program.assemble_eq {p : Program} {a : Analysis} (h : p.analyse = .ok a) :
    p.Legal ∧ a.main = p.draft.main ∧ a.assemble = .ok p.image := by
  have spec := p.analyse_spec
  rw [h] at spec
  obtain ⟨legal, matched⟩ := spec
  refine ⟨legal, matched.main, ?_⟩
  have names := Analysis.mapM_nameOf legal h
  have own : (p.draft.fns.drop entryIndex).mapM (a.functionOf p.draft.data.length)
      = .ok ((p.draft.fns.drop entryIndex).map (·.function p.draft.data.length)) := by
    refine mapM_of_forall₂ (List.forall₂_map_right_iff.2 (List.forall₂_same.2 fun f mem => ?_))
    exact Analysis.functionOf_eq (legal.isWellFormed f mem)
  unfold Analysis.assemble
  simp only [matched.functions, matched.globals, names, (Draft.isNumbered_draft p).filter_eq_drop, own]
  rfl

/-! ### Images -/

theorem Global.text?_ofText (s : String) : (Global.ofText s).text? = some s := by
  unfold Global.ofText Global.text? String.fromUTF8?
  simp only [Option.dite_none_right_eq_some]
  exact ⟨s.isValidUTF8, rfl⟩

/-- Function `k` of an image has a name, slots on the stack, and operands that spell references. -/
structure Image.HasFunction (m : Image) (r : Roster) (k : Nat) (name : String) (shape : Shape)
    (refs : List Reference) (f : Function) : Prop where
  place : m.functions[k]? = some f
  /-- The name is looked up by its place among the globals, as long as 32 bits hold that place. -/
  name : r.globals.length + libraryCount + k < 2 ^ 32 → m.functionName? f = some name
  retSlots : f.retSlots = if shape.ret = .int then 1 else 0
  paramSlots : f.paramSlots = .ofNat shape.params
  localSlots : f.localSlots = .ofNat shape.locals
  operands : r.Spells shape f.body refs

/-- The tables of an image are those of the roster of a program. -/
structure Image.Numbers (m : Image) (p : Program) : Prop where
  globals : m.globals = (rosterOf p.items).globals.map Registration.global ++
    (LibraryFn.all.map (·.name) ++ entryName :: (Item.fns p.items).map (·.name.name)).map .ofText
  count : m.functions.length = (Item.fns p.items).length + 1
  start : ∃ f, m.HasFunction (rosterOf p.items) 0 entryName .start
    (Item.startReferences 0 p.items ++ [.room mainName, .call mainName]) f
  declared : ∀ before f after, p.items = before ++ .fn f :: after →
    ∃ g, m.HasFunction (rosterOf p.items) ((Item.fns before).length + 1) f.name.name f.shape
      (f.body.references f.scope (before.flatMap Item.texts).length) g
  /-- The program starts in a function that ends with the call of `main`. -/
  main : ∃ code k main start, m.functions[0]? = some start ∧ m.functions[k]? = some main ∧
    (rosterOf p.items).functions[k]?.map Prod.fst = some mainName ∧
    start.body = code ++ [.withOperand .stackalloc (Int64.ofNat main.retSlots.toNat),
      .withOperand .call (Int64.ofNat k)]
  /-- A name has one number. -/
  scalars : ∀ (i j : Nat) (name : String) (isConst isConst' : Bool),
    (rosterOf p.items).globals[i]? = some (.scalar name isConst) →
    (rosterOf p.items).globals[j]? = some (.scalar name isConst') → i = j
  functions : ∀ (i j : Nat) (name : String) (ret ret' : Ty),
    (rosterOf p.items).functions[i]? = some (name, ret) →
    (rosterOf p.items).functions[j]? = some (name, ret') → i = j

section Images

variable {p : Program}

theorem Program.index_eq {k : Nat} {f : FnInfo} (at_k : p.draft.fns[k]? = some f) : f.index = k := by
  have indices := congrArg (·[k]?) (Draft.isNumbered_draft p).indices
  simp only [List.getElem?_map, at_k, Option.map_some] at indices
  rw [List.getElem?_range (List.getElem?_eq_some_iff.1 at_k).1, Option.some.injEq] at indices
  exact indices

/-- A function of the draft is a function of the image, and its name is found behind the globals. -/
theorem Program.Legal.hasFunction (legal : p.Legal) {k : Nat} {f : FnInfo} {name : String}
    {refs : List Reference} {shape : Shape} (at_k : p.draft.fns[entryIndex + k]? = some f)
    (named : (rosterOf p.items).functions[k]? = some (name, f.ret)) (ret : f.ret = shape.ret)
    (params : f.params.length = shape.params) (locals : f.locals.length = shape.locals)
    (spells : (rosterOf p.items).Spells shape f.body refs) :
    p.image.HasFunction (rosterOf p.items) k name shape refs (f.function p.draft.data.length) := by
  refine ⟨?_, fun small => ?_, ?_, by rw [← params]; rfl, by rw [← locals]; rfl, spells⟩
  · rw [Program.image, List.getElem?_map, List.getElem?_drop, at_k, Option.map_some]
  · have place : (f.function p.draft.data.length).name.toNat = p.draft.data.length + (entryIndex + k) := by
      rw [FnInfo.function, Program.index_eq at_k]
      refine UInt32.toNat_ofNat_of_lt' ?_
      rw [legal.enrolls.length_data, ← Nat.add_assoc]
      exact small
    have has : (rosterOf p.items).Has name (.fn (entryIndex + k) f.ret) :=
      .inr ⟨Nat.le_add_right _ _, by rw [Nat.add_sub_cancel_left, named]⟩
    rw [Image.functionName?, place, Program.image, List.getElem?_append_right (Nat.le_add_right _ _),
      Nat.add_sub_cancel_left, List.getElem?_map, has.getElem?_names, Option.map_some, Option.bind_some,
      Global.text?_ofText]
  · rw [FnInfo.function, FnInfo.returnSlots, ← ret]
    cases f.ret <;> rfl

theorem Program.Legal.hasFunction_declared (legal : p.Legal) {before after : List Item} {f : FnItem}
    (items : p.items = before ++ .fn f :: after) :
    p.image.HasFunction (rosterOf p.items) ((Item.fns before).length + 1) f.name.name f.shape
      (f.body.references f.scope (before.flatMap Item.texts).length)
      (((before.foldl Draft.add .initial).infoOf f).function p.draft.data.length) := by
  have parts := legal.1
  rw [items] at parts
  have own : f.Legal (before.foldl Draft.add .initial) := parts.append.2.1
  refine legal.hasFunction (legal.getElem?_fns items) (functions_eq items) rfl ?_ own.length_locals
    (legal.spells_function items)
  simp [Draft.infoOf, FnItem.signature, FnItem.shape]

theorem Program.Legal.hasFunction_start (legal : p.Legal) {k : Nat} (main : p.draft.main = some k) :
    p.image.HasFunction (rosterOf p.items) 0 entryName .start
      (Item.startReferences 0 p.items ++ [.room mainName, .call mainName])
      (((FnInfo.declared entryIndex .void []).extend (Item.startCode .initial p.items ++
        (p.items.foldl Draft.add .initial).mainCall)).function p.draft.data.length) :=
  legal.hasFunction p.getElem?_entry rfl rfl rfl rfl (legal.spells_start.append (legal.spells_mainCall main))

theorem Program.Legal.numbers (legal : p.Legal) {k : Nat} (main : p.draft.main = some k) :
    p.image.Numbers p := by
  have start := legal.hasFunction_start main
  refine ⟨?_, ?_, ⟨_, start⟩, fun before f after items => ⟨_, legal.hasFunction_declared items⟩, ?_,
    fun i j name isConst isConst' at_i at_j => ?_, fun i j name ret ret' at_i at_j => ?_⟩
  · rw [Program.image, legal.enrolls.data, Roster.names]
    simp [rosterOf]
  · have count := legal.enrolls.count
    simp only [Program.image, List.length_map, List.length_drop, count, Nat.add_sub_cancel_left]
    simp [rosterOf]
  · obtain ⟨before, f, after, items, name, -, code⟩ := legal.mainCall_eq main
    have declared := legal.hasFunction_declared items
    refine ⟨Item.startCode .initial p.items, _, _, _, start.place, declared.place, ?_, ?_⟩
    · rw [functions_eq items, ← name]
      rfl
    · change Item.startCode .initial p.items ++ (p.items.foldl Draft.add .initial).mainCall = _
      have slots : (((before.foldl Draft.add .initial).infoOf f).function
          p.draft.data.length).retSlots.toNat = f.ret.returnSlots := by
        rw [declared.retSlots, FnItem.shape]
        cases f.ret <;> rfl
      rw [code, slots]
  · obtain ⟨ty, mem⟩ := legal.enrolls.scalars i name isConst at_i
    obtain ⟨ty', mem'⟩ := legal.enrolls.scalars j name isConst' at_j
    cases legal.unique mem mem'
    rfl
  · have mem := legal.enrolls.functions i name ret at_i
    have mem' := legal.enrolls.functions j name ret' at_j
    have same := legal.unique mem mem'
    simp only [Binding.fn.injEq] at same
    omega

end Images

/-- A source that compiles keeps the static rules and has a `main`, and its image is that of its draft. -/
theorem Program.legal_of_compile {source : String} {m : Image} (h : compile source = .ok m) :
    (ofSource source).Legal ∧ m = (ofSource source).image ∧ ∃ k, (ofSource source).draft.main = some k := by
  obtain ⟨a, analysed, ⟨k, main⟩, assembled⟩ := exists_assemble_of_compile h
  obtain ⟨legal, same, image⟩ := assemble_eq analysed
  rw [assembled, Except.ok.injEq] at image
  exact ⟨legal, image, k, same ▸ main⟩

end CZero
