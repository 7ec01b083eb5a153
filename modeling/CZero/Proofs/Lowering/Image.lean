import CZero.Proofs.Codegen.Flow
import CZero.Proofs.Lowering.Source

/-!
# The image of a source

The functions of an image are those of the draft without the library, and in the same order. The
function of an item is found at the place that was next when the item was reached, and what comes later
does not change it.
-/

namespace CZero

/-! ### Functions of a draft -/

/-- A function as an image has it, behind so many globals. -/
def FnInfo.function (slots : Nat) (f : FnInfo) : Function where
  name := UInt32.ofNat (slots + f.index)
  retSlots := UInt32.ofNat f.returnSlots
  paramSlots := UInt32.ofNat f.params.length
  localSlots := UInt32.ofNat f.locals.length
  body := f.body

/-- What generation makes of a function. -/
def Draft.infoOf (d : Draft) (f : FnItem) : FnInfo where
  index := d.fns.length
  ret := f.ret
  params := f.signature
  locals := (f.body.gen (d.start f)).2.locals
  body := (f.body.gen (d.start f)).1 ++ f.epilogue
  isLibrary := false

/-- The program declares function `f` where `d` is the draft of all before it. -/
def Program.Has (p : Program) (d : Draft) (f : FnItem) : Prop :=
  ∃ before after, p.items = before ++ .fn f :: after ∧ before.foldl Draft.add .initial = d

namespace Draft

/-- Every function has its place as its number, and the function that a program starts in is there. -/
structure IsNumbered (d : Draft) : Prop where
  indices : d.fns.map (·.index) = List.range d.fns.length
  entry : entryIndex < d.fns.length

theorem isNumbered_initial : initial.IsNumbered :=
  ⟨by decide, by decide⟩

theorem isNumbered_extend {d d' : Draft} (h : d.IsNumbered) (k : Nat) (code : List Instr)
    (eq : d'.fns = d.fns.modify k (·.extend code)) : d'.IsNumbered := by
  refine ⟨?_, by rw [eq, List.length_modify]; exact h.entry⟩
  rw [eq, List.length_modify, ← h.indices]
  refine List.ext_getElem? fun i => ?_
  rw [List.getElem?_map, List.getElem?_map, List.getElem?_modify, Option.map_eq_map, Option.map_map]
  congr 1
  funext f
  dsimp only [Function.comp_apply]
  split <;> rfl

theorem fns_addFn (d : Draft) (f : FnItem) : (d.addFn f).fns = d.fns ++ [d.infoOf f] := rfl

theorem isNumbered_add {d : Draft} (h : d.IsNumbered) (i : Item) : (d.add i).IsNumbered := by
  cases i with
  | decl g => exact isNumbered_extend h entryIndex _ rfl
  | fn f =>
    refine ⟨?_, ?_⟩
    · rw [add, fns_addFn, List.map_append, h.indices, List.length_append, List.length_singleton,
        List.range_succ]
      rfl
    · rw [add, fns_addFn, List.length_append]
      exact Nat.lt_add_right _ h.entry

theorem isNumbered_foldl {d : Draft} (h : d.IsNumbered) (items : List Item) :
    (items.foldl add d).IsNumbered := by
  induction items generalizing d with
  | nil => exact h
  | cons i rest ih => exact ih (isNumbered_add h i)

theorem isNumbered_draft (p : Program) : p.draft.IsNumbered :=
  isNumbered_extend (isNumbered_foldl isNumbered_initial p.items) entryIndex _ rfl

/-- All but the library are the functions from the entry on. -/
theorem IsNumbered.filter_eq_drop {d : Draft} (h : d.IsNumbered) (k : Nat) :
    d.fns.filter (k ≤ ·.index) = d.fns.drop k := by
  have low : ∀ f ∈ d.fns.take k, f.index < k := by
    intro f hf
    have mem := List.mem_map_of_mem (f := FnInfo.index) hf
    rw [List.map_take, h.indices, List.take_range, List.mem_range] at mem
    omega
  have high : ∀ f ∈ d.fns.drop k, k ≤ f.index := by
    intro f hf
    have mem := List.mem_map_of_mem (f := FnInfo.index) hf
    rw [List.map_drop, h.indices] at mem
    obtain ⟨i, lt, eq⟩ := List.mem_iff_getElem.1 mem
    rw [List.getElem_drop, List.getElem_range] at eq
    omega
  conv_lhs => rw [← List.take_append_drop k d.fns]
  rw [List.filter_append, List.filter_eq_nil_iff.2 fun f hf => by simpa using low f hf,
    List.filter_eq_self.2 fun f hf => by simpa using high f hf, List.nil_append]

/-! ### Functions stay as they are -/

theorem fns_add {d : Draft} {k : Nat} {f : FnInfo} (i : Item) (ne : k ≠ entryIndex)
    (h : d.fns[k]? = some f) : (d.add i).fns[k]? = some f := by
  cases i with
  | decl g =>
    change (d.fns.modify entryIndex _)[k]? = some f
    rw [List.getElem?_modify_ne _ _ (Ne.symm ne), h]
  | fn g =>
    obtain ⟨lt, -⟩ := List.getElem?_eq_some_iff.1 h
    rw [add, fns_addFn, List.getElem?_append_left lt, h]

theorem fns_foldl {d : Draft} {k : Nat} {f : FnInfo} (items : List Item) (ne : k ≠ entryIndex)
    (h : d.fns[k]? = some f) : (items.foldl add d).fns[k]? = some f := by
  induction items generalizing d with
  | nil => exact h
  | cons i rest ih => exact ih (fns_add i ne h)

theorem entry_lt_foldl (items : List Item) : entryIndex < (items.foldl add initial).fns.length :=
  (isNumbered_foldl isNumbered_initial items).entry

end Draft

/-- A function of a program is a function of its draft. -/
theorem Program.Has.getElem? {p : Program} {d : Draft} {f : FnItem} (h : p.Has d f) :
    p.draft.fns[d.fns.length]? = some (d.infoOf f) ∧ entryIndex < d.fns.length := by
  obtain ⟨before, after, items, rfl⟩ := h
  have lt := Draft.entry_lt_foldl before
  refine ⟨?_, lt⟩
  have added : ((before.foldl Draft.add .initial).add (.fn f)).fns[(before.foldl Draft.add .initial).fns.length]? =
      some ((before.foldl Draft.add .initial).infoOf f) := by
    rw [Draft.add, Draft.fns_addFn, List.getElem?_concat_length]
  have stays := Draft.fns_foldl after (Nat.ne_of_gt lt) added
  rw [Program.draft, items, List.foldl_append, List.foldl_cons]
  change (List.modify _ _ _)[_]? = _
  rw [List.getElem?_modify_ne _ _ (Nat.ne_of_lt lt), stays]

/-! ### Images -/

/-- The image of a draft. -/
structure Image.IsOf (m : Image) (d : Draft) : Prop where
  globals : ∃ names, m.globals = d.data ++ names
  functions : m.functions = (d.fns.drop entryIndex).map (·.function d.data.length)
  main : ∃ main, d.main = some main

theorem forall₂_of_mapM {α β : Type} {f : α → Except Diagnostic β} {xs : List α} {ys : List β}
    (h : xs.mapM f = .ok ys) : List.Forall₂ (fun x y => f x = .ok y) xs ys := by
  induction xs generalizing ys with
  | nil =>
    cases h
    exact .nil
  | cons x xs ih =>
    rw [List.mapM_cons] at h
    cases hx : f x with
    | error d => rw [hx] at h; cases h
    | ok y =>
      cases hxs : xs.mapM f with
      | error d => rw [hx, hxs] at h; cases h
      | ok rest =>
        rw [hx, hxs] at h
        cases h
        exact .cons hx (ih hxs)

theorem mapM_eq_map {α β : Type} {f : α → Except Diagnostic β} {g : α → β} {xs : List α} {ys : List β}
    (h : xs.mapM f = .ok ys) (hf : ∀ x y, f x = .ok y → y = g x) : ys = xs.map g := by
  have rel := forall₂_of_mapM h
  clear h
  induction rel with
  | nil => rfl
  | cons hx _ ih => rw [List.map_cons, hf _ _ hx, ih]

theorem Analysis.eq_of_functionOf {a : Analysis} {slots : Nat} {f : FnInfo} {g : Function}
    (h : a.functionOf slots f = .ok g) : g = f.function slots := by
  unfold functionOf at h
  split at h
  · cases h
  · cases h
    rfl

/-- The two tables of an assembled image. -/
theorem Analysis.exists_of_assemble {a : Analysis} {m : Image} (h : a.assemble = .ok m) :
    ∃ names own, a.table.allFunctions.mapM a.nameOf = .ok names ∧
      (a.table.allFunctions.filter (entryIndex ≤ ·.index)).mapM
        (a.functionOf (a.table.globals.map globalOf).length) = .ok own ∧
      m = ⟨a.table.globals.map globalOf ++ names, own⟩ := by
  simp only [assemble] at h
  cases hn : a.table.allFunctions.mapM a.nameOf with
  | error d => rw [hn] at h; cases h
  | ok names =>
    cases ho : (a.table.allFunctions.filter (entryIndex ≤ ·.index)).mapM
        (a.functionOf (a.table.globals.map globalOf).length) with
    | error d => rw [hn, ho] at h; cases h
    | ok own =>
      rw [hn, ho] at h
      cases h
      exact ⟨names, own, rfl, rfl, rfl⟩

theorem Analysis.isOf_assemble {a : Analysis} {m : Image} {p : Program} (matched : a.Matches p.draft)
    (main : ∃ main, a.main = some main) (h : a.assemble = .ok m) : m.IsOf p.draft := by
  obtain ⟨names, own, -, ho, rfl⟩ := exists_of_assemble h
  simp only [matched.globals, matched.functions, (Draft.isNumbered_draft p).filter_eq_drop] at ho ⊢
  exact ⟨⟨names, rfl⟩, mapM_eq_map ho fun f g => eq_of_functionOf, matched.main ▸ main⟩

/-- A source that compiles is analysed, has a `main`, and is assembled. -/
theorem exists_assemble_of_compile {source : String} {m : Image} (h : compile source = .ok m) :
    ∃ a, (Program.ofSource source).analyse = .ok a ∧ (∃ main, a.main = some main) ∧ a.assemble = .ok m := by
  unfold compile analyse at h
  cases ha : (Program.ofSource source).analyse with
  | error d => rw [ha] at h; cases h
  | ok a =>
    rw [ha] at h
    cases hm : a.main with
    | none =>
      simp only [bind, Except.bind, Analysis.requireMain, hm] at h
      cases h
    | some main =>
      simp only [bind, Except.bind, Analysis.requireMain, hm] at h
      exact ⟨a, rfl, ⟨main, hm⟩, h⟩

/-- A source that compiles has a tree that keeps the static rules, and the image is that of its draft. -/
theorem compile_spec {source : String} {m : Image} (h : compile source = .ok m) :
    (Program.ofSource source).Legal ∧ m.IsOf (Program.ofSource source).draft := by
  obtain ⟨a, analysed, main, assembled⟩ := exists_assemble_of_compile h
  have spec := (Program.ofSource source).analyse_spec
  rw [analysed] at spec
  exact ⟨spec.1, a.isOf_assemble spec.2 main assembled⟩

/-- A function of a program is a function of its image. -/
theorem Image.IsOf.getElem? {m : Image} {p : Program} {d : Draft} {f : FnItem} (h : m.IsOf p.draft)
    (has : p.Has d f) :
    m.functions[d.fns.length - entryIndex]? = some ((d.infoOf f).function p.draft.data.length) := by
  obtain ⟨info, lt⟩ := has.getElem?
  rw [h.functions, List.getElem?_map, List.getElem?_drop, Nat.add_sub_cancel' (Nat.le_of_lt lt), info]
  rfl

/-- The code of a function is at the start of that function in the image. -/
theorem Image.IsOf.holds {m : Image} {p : Program} {d : Draft} {f : FnItem} (h : m.IsOf p.draft)
    (has : p.Has d f) :
    m.Holds (d.fns.length - entryIndex) 0 ((f.body.gen (d.start f)).1 ++ f.epilogue) := by
  intro i x hx
  rw [Image.instr?, h.getElem? has, Nat.zero_add]
  exact hx

end CZero
