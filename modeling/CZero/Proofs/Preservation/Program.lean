import CZero.Proofs.Preservation.Call

/-!
# Programs

A program starts in the function that gives the global variables their values, in the order of the source.
That function then calls `main`, and its code ends there. So the machine stops with the result of `main` as
the only value on its stack.
-/

namespace CZero

open State

variable {m : Image} {p : Program} {n : Nat}

/-! ### The function that a program starts in -/

/-- What parts of a program add to the function that it starts in. -/
def Item.startCode (d : Draft) : List Item → List Instr
  | [] => []
  | .fn f :: rest => Item.startCode (d.addFn f) rest
  | .decl g :: rest => g.globalCode d.env d.data.length ++ Item.startCode (d.addDecl g) rest

theorem Draft.entry_foldl {d : Draft} {f : FnInfo} (items : List Item) (h : d.fns[entryIndex]? = some f) :
    (items.foldl Draft.add d).fns[entryIndex]? = some (f.extend (Item.startCode d items)) := by
  induction items generalizing d f with
  | nil => simpa [FnInfo.extend, Item.startCode] using h
  | cons i rest ih =>
    cases i with
    | fn g =>
      refine ih (d := d.addFn g) ?_
      rw [fns_addFn, List.getElem?_append_left (List.getElem?_eq_some_iff.1 h).1, h]
    | decl g =>
      have added : (d.addDecl g).fns[entryIndex]? =
          some (f.extend (g.globalCode d.env d.data.length)) := by
        change (d.fns.modify entryIndex _)[entryIndex]? = _
        rw [List.getElem?_modify_eq, h]
        rfl
      rw [List.foldl_cons, Draft.add, ih added]
      simp [FnInfo.extend, Item.startCode]

/-- The function that a program starts in initializes the globals and calls `main`. -/
theorem Program.getElem?_entry (p : Program) : p.draft.fns[entryIndex]? =
    some ((FnInfo.declared entryIndex .void []).extend
      (Item.startCode .initial p.items ++ (p.items.foldl Draft.add .initial).mainCall)) := by
  have entry : Draft.initial.fns[entryIndex]? = some (.declared entryIndex .void []) := by decide
  have all := Draft.entry_foldl p.items entry
  change ((p.items.foldl Draft.add .initial).fns.modify entryIndex _)[entryIndex]? = _
  rw [List.getElem?_modify_eq, all]
  simp [FnInfo.extend]

/-- It is function 0 of the image. -/
theorem Image.IsOf.start (h : m.IsOf p.draft) : ∃ f, m.functions[0]? = some f ∧
    f.body = Item.startCode .initial p.items ++ (p.items.foldl Draft.add .initial).mainCall := by
  refine ⟨_, by rw [h.functions, List.getElem?_map, List.getElem?_drop, Nat.add_zero, p.getElem?_entry]; rfl, ?_⟩
  simp [FnInfo.function, FnInfo.extend, FnInfo.declared]

/-! ### Global variables -/

/-- The function that a program starts in. -/
def Scene.start : Scene where
  act := ⟨0, 0, 0, 0, []⟩
  names := []
  below := []
  base := rfl
  nodup := List.nodup_nil
  small := by decide

theorem Scene.sees_start {d : Draft} {L : Layer} (outer : d.outer <:+ L) : Scene.start.Sees L d.env [] where
  ret := rfl
  outer _ _ found := outer.mem (Layer.mem_of_lookup found)
  inner _ _ found := by cases found
  free _ _ := List.not_mem_nil

/-- Global variables get their values in order. -/
theorem Item.sim_init {call : Callees} {L : Layer} (names : L.IsOf p) (calls : call.Simulated m L p n)
    {items : List Item} {d : Draft} {pc : Nat} {st : Store} {s : State} (legal : LegalItems d items)
    (integer : ∀ i ∈ items, i.isInteger p) (outer : (items.foldl Draft.add d).outer <:+ L)
    (holds : m.Holds 0 pc (Item.startCode d items)) (shows : Scene.start.Shows L pc [] st s) :
    Sim m L n s (fun _ => Scene.start.Shows L (pc + (Item.startCode d items).length) [])
      (Eval.ofOuter (Item.init call d.data.length items) st) := by
  induction items generalizing d pc st s with
  | nil => exact .pure shows
  | cons i rest ih =>
    have later := fun j hj => integer j (List.mem_cons_of_mem i hj)
    cases i with
    | fn f =>
      have data := (Draft.addFn_eq legal.1).2
      have rest := ih legal.2 later outer holds shows
      rwa [Draft.add, data] at rest
    | decl g =>
      have data : (d.addDecl g).data.length = d.data.length + g.texts.length + 1 := by
        simp [Draft.addDecl, Nat.add_assoc]
      rw [Item.startCode, Image.holds_append] at holds
      rw [Item.startCode, List.length_append, ← Nat.add_assoc]
      have next : ∀ st s, Scene.start.Shows L (pc + (g.globalCode d.env d.data.length).length) [] st s → _ :=
        fun st s shows => ih legal.2 later outer holds.2 shows
      rw [Draft.add, data] at next
      rw [Item.init]
      cases init : g.init with
      | none =>
        have code : g.globalCode d.env d.data.length = [] := by rw [Decl.globalCode, init]
        exact next st s (by rwa [code])
      | some e =>
        obtain ⟨ty, type, -⟩ := legal.1.1.2.2 e init
        have typed : (e.type? d.env).isSome := by rw [type]; rfl
        have kind : e.kind? p = some .int := by
          have own := integer _ List.mem_cons_self
          simp only [Item.isInteger, Decl.isInteger, init, Bool.and_eq_true] at own
          exact of_decide_eq_true own.2
        have mem : (g.name.name, .var (.glob (d.data.length + g.texts.length)) g.type.ty g.isConst) ∈ L :=
          ((Draft.suffix_foldl legal.2).trans outer).mem List.mem_cons_self
        have sees := Scene.sees_start ((Draft.suffix_foldl legal).trans outer)
        have code : g.globalCode d.env d.data.length =
            [.withOperand .globa (Int64.ofNat (d.data.length + g.texts.length))] ++
              e.code d.env d.data.length ++ [.plain .store64] := by
          rw [Decl.globalCode, init]
        rw [code, Image.holds_append, Image.holds_append, Image.holds_cons, Image.holds_cons] at holds
        rw [code] at next ⊢
        simp only [List.length_append, List.length_singleton, ← Nat.add_assoc] at holds next ⊢
        obtain ⟨⟨⟨⟨first, -⟩, inner⟩, last, -⟩, -⟩ := holds
        obtain ⟨t, leads, shows⟩ := shows.push fun g => leads_globa first
        -- Outside of functions there are no variables but globals.
        have outside : Scene.start.Shows L _ _ ⟨st.toWorld, fun _ => 0⟩ t := shows
        have value := (e.sim_eval names calls sees typed kind inner outside).value
        rw [Eval.ofOuter_bind]
        refine .step leads ((Sim.inside st value).bind ?_)
        rintro v st t ⟨-, _, shows⟩
        rw [Eval.ofOuter_bind]
        have locates : Scene.start.Locates L [] g.name.name _ := .outer List.not_mem_nil mem
        exact .bind (locates.store names last shows) fun _ st t shows => next st t shows

/-! ### The call of `main` -/

theorem Draft.main_foldl {d : Draft} {i : Nat} {items : List Item}
    (h : (items.foldl Draft.add d).main = some i) :
    d.main = some i ∨ ∃ before f after, items = before ++ .fn f :: after ∧ f.name.name = mainName ∧
      i = (before.foldl Draft.add d).fns.length := by
  induction items generalizing d with
  | nil => exact .inl h
  | cons j rest ih =>
    rcases ih h with main | ⟨before, f, after, items, name, index⟩
    · cases j with
      | decl g => exact .inl main
      | fn f =>
        change (if f.name.name = mainName then some d.fns.length else d.main) = some i at main
        by_cases name : f.name.name = mainName
        · rw [if_pos name] at main
          exact .inr ⟨[], f, rest, rfl, name, (Option.some_inj.1 main).symm⟩
        · rw [if_neg name] at main
          exact .inl main
    · exact .inr ⟨j :: before, f, after, by rw [items]; rfl, name, index⟩

theorem Item.isSome_find? {f : FnItem} {items : List Item} (mem : .fn f ∈ items) (n : Nat) :
    (Item.find? f.name.name n items).isSome := by
  induction items generalizing n with
  | nil => cases mem
  | cons i rest ih =>
    cases i with
    | decl g =>
      rw [Item.find?]
      exact ih ((List.mem_cons.1 mem).resolve_left (by simp)) _
    | fn g =>
      rw [Item.find?]
      by_cases name : g.name.name = f.name.name
      · rw [if_pos name]
        rfl
      · rw [if_neg name]
        refine ih ((List.mem_cons.1 mem).resolve_left ?_) _
        rintro ⟨⟩
        exact name rfl

namespace Program.Compiles

/-- The code behind the global variables calls `main`. -/
theorem main (h : p.Compiles m) : ∃ i f k, (mainName, .fn i f.ret) ∈ p.draft.outer ∧
    p.callee? mainName = some (.declared f k) ∧ f.params = [] ∧
    (p.items.foldl Draft.add .initial).mainCall =
      [.withOperand .stackalloc (Int64.ofNat f.ret.returnSlots), callOf i] := by
  obtain ⟨i, main⟩ := h.image.main
  obtain none | ⟨before, f, after, items, name, index⟩ := Draft.main_foldl main
  · cases none
  have has : p.Has (before.foldl Draft.add .initial) f := ⟨before, after, items, rfl⟩
  have mem : (mainName, .fn i f.ret) ∈ p.draft.outer := by
    rw [← name, index]
    exact (has.suffix h.legal).mem List.mem_cons_self
  have here : .fn f ∈ p.items := by rw [items]; simp
  obtain ⟨⟨f', k⟩, found⟩ := Option.isSome_iff_exists.1 (Item.isSome_find? here 0)
  have callee : p.callee? mainName = some (.declared f' k) := by
    have library : LibraryFn.all.find? (·.name = mainName) = none := by decide
    rw [Program.callee?, library, ← name, found]
    rfl
  obtain ⟨name', d, has', index', -, ret⟩ := h.legal.declared mem callee
  refine ⟨i, f', k, ret ▸ mem, callee, ?_, ?_⟩
  · have integer := h.isInteger has'
    simp only [Item.isInteger, Bool.and_eq_true, Bool.or_eq_true, decide_eq_true_eq] at integer
    simpa [name'] using integer.2
  · obtain ⟨info, lt⟩ := has'.getElem?
    change ((p.items.foldl Draft.add .initial).fns.modify entryIndex _)[d.fns.length]? = _ at info
    rw [List.getElem?_modify_ne _ _ (Nat.ne_of_lt lt)] at info
    have main : (p.items.foldl Draft.add .initial).main = some i := main
    have own : ¬i < libraryCount := index' ▸ Nat.not_lt.2 (Nat.le_of_lt lt)
    rw [Draft.mainCall, main, callOf, if_neg own]
    dsimp only
    rw [index', info]
    rfl

/-- All globals are zero when a program starts. -/
theorem agrees_start (h : p.Compiles m) :
    p.draft.outer.Agrees (fun _ => 0) (Array.replicate m.globals.length 0) := by
  intro x i ty isConst mem
  obtain ⟨_, ⟨⟩, lt⟩ := h.legal.isNamed.global _ _ _ _ mem
  obtain ⟨names, globals⟩ := h.image.globals
  rw [Array.getElem?_replicate, if_pos]
  rw [globals, List.length_append]
  omega

/-- The machine does what the program means, and comes to the end of function 0 with the result. -/
theorem sim_program (h : p.Compiles m) (n : Nat) (console : Console) (locals : String → Int64) :
    Sim m p.draft.outer n (.start m console)
      (fun v st t => ∃ g, p.draft.outer.Agrees st.globals g ∧
        t = Scene.start.act.state (m.length 0) v.toList g st.console)
      (Eval.ofOuter (p.eval m.payload n) ⟨⟨fun _ => 0, console⟩, locals⟩) := by
  obtain ⟨i, f, k, mem, callee, params, code⟩ := h.main
  obtain ⟨F, found, body⟩ := h.image.start
  have length : m.length 0 = F.body.length := by
    rw [Image.length, found]
    rfl
  have holds : m.Holds 0 0 F.body := by
    intro j x hx
    rw [Image.instr?, found, Nat.zero_add]
    exact hx
  rw [body, code, Image.holds_append, Image.holds_cons, Image.holds_cons, Nat.zero_add] at holds
  rw [length, body, code]
  obtain ⟨init, alloc, call, -⟩ := holds
  have shows : Scene.start.Shows p.draft.outer 0 [] ⟨⟨fun _ => 0, console⟩, locals⟩ (.start m console) :=
    ⟨_, h.agrees_start, rfl⟩
  have globals := Item.sim_init h.names (h.simulated n) h.legal.1 (List.all_eq_true.1 h.integer)
    List.suffix_rfl init shows
  rw [Program.eval, Eval.ofOuter_bind]
  refine globals.bind fun _ st s shows => ?_
  rw [Nat.zero_add] at shows
  obtain ⟨t, leads, g, agrees, rfl⟩ := shows.alloc (by have := f.ret.returnSlots_le; omega) alloc
  have none : ([] : List Int64).length = (Callee.declared f k).arity := by simp [Callee.arity, params]
  have called := h.simulated n mem callee rfl none (a := Scene.start.act) (x := []) call agrees
  rw [List.append_nil] at called
  refine .step leads (called.imp ?_)
  rintro v st' t ⟨-, -, g, agrees, rfl⟩
  exact ⟨g, agrees, by simp⟩

end Program.Compiles

end CZero
