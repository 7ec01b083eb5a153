import CZero.Proofs.Codegen.Size
import CZero.Proofs.Lowering.Image
import CZero.Proofs.Preservation.Scene

/-!
# The names of a program

Outside of functions a name is declared once, and what is declared stays. So the outer layer of the whole
program says what a name stands for at every place that sees it: the library, the global variables, each
with a global of its own, and the functions with their numbers.
-/

namespace CZero

namespace Draft

/-- Names are declared once, and every variable has a global of its own. -/
structure IsNamed (d : Draft) : Prop where
  nodup : (d.outer.map Prod.fst).Nodup
  global : ∀ x slot ty isConst, (x, .var slot ty isConst) ∈ d.outer →
    ∃ i, slot = .glob i ∧ i < d.data.length
  separate : ∀ x y i ty isConst ty' isConst', (x, .var (.glob i) ty isConst) ∈ d.outer →
    (y, .var (.glob i) ty' isConst') ∈ d.outer → x = y

theorem isNamed_initial : initial.IsNamed := by
  have fns : ∀ x b, (x, b) ∈ initial.outer → ∃ i ret, b = .fn i ret := by
    intro x b mem
    rcases List.mem_cons.1 mem with eq | mem
    · cases eq
      exact ⟨_, _, rfl⟩
    · obtain ⟨i, lt, eq⟩ := List.mem_mapIdx.1 (List.mem_reverse.1 mem)
      cases eq
      exact ⟨_, _, rfl⟩
  refine ⟨by decide, fun x slot ty isConst mem => ?_, fun x y i ty isConst ty' isConst' mem => ?_⟩
  all_goals
    obtain ⟨_, _, ⟨⟩⟩ := fns _ _ mem

/-- A function adds its name, and a global for each string literal. -/
theorem addFn_eq {d : Draft} {f : FnItem} (legal : f.Legal d) :
    (d.addFn f).outer = (f.name.name, .fn d.fns.length f.ret) :: d.outer ∧
      (d.addFn f).data.length = d.data.length + f.body.texts.length :=
  have place := legal.body.isAt legal.isAt_start
  ⟨place.outer, place.data⟩

theorem suffix_add {d : Draft} {i : Item} (legal : i.Legal d) : d.outer <:+ (d.add i).outer := by
  cases i with
  | fn f =>
    rw [add, (addFn_eq legal).1]
    exact List.suffix_cons _ _
  | decl g => exact List.suffix_cons _ _

theorem suffix_foldl {d : Draft} {items : List Item} (legal : LegalItems d items) :
    d.outer <:+ (items.foldl add d).outer := by
  induction items generalizing d with
  | nil => exact List.suffix_rfl
  | cons i rest ih => exact (suffix_add legal.1).trans (ih legal.2)

theorem isNamed_add {d : Draft} (h : d.IsNamed) {i : Item} (legal : i.Legal d) : (d.add i).IsNamed := by
  cases i with
  | fn f =>
    obtain ⟨outer, data⟩ := addFn_eq legal
    refine ⟨?_, fun x slot ty isConst mem => ?_, fun x y i ty isConst ty' isConst' hx hy => ?_⟩
    · rw [add, outer, List.map_cons, List.nodup_cons]
      exact ⟨Layer.not_mem_of_lookup legal.fresh, h.nodup⟩
    · rw [add, outer, List.mem_cons] at mem
      obtain ⟨i, eq, lt⟩ := h.global _ _ _ _ (mem.resolve_left (by simp))
      exact ⟨i, eq, by rw [add, data]; omega⟩
    · rw [add, outer, List.mem_cons] at hx hy
      exact h.separate _ _ _ _ _ _ _ (hx.resolve_left (by simp)) (hy.resolve_left (by simp))
  | decl g =>
    have fresh : g.name.name ∉ d.outer.map Prod.fst := Names.declares_eq_false legal.2
    have data : (d.addDecl g).data.length = d.data.length + g.texts.length + 1 := by
      simp [addDecl, Nat.add_assoc]
    refine ⟨List.nodup_cons.2 ⟨fresh, h.nodup⟩, fun x slot ty isConst mem => ?_,
      fun x y i ty isConst ty' isConst' hx hy => ?_⟩
    · rw [add, data]
      rcases List.mem_cons.1 mem with eq | mem
      · obtain ⟨⟩ := eq
        exact ⟨_, rfl, Nat.lt_succ_self _⟩
      · obtain ⟨i, eq, lt⟩ := h.global _ _ _ _ mem
        exact ⟨i, eq, by omega⟩
    · -- A new variable has a slot behind all that were there.
      have behind : ∀ z ty isConst, (z, .var (.glob i) ty isConst) ∈ d.outer →
          i < d.data.length + g.texts.length := by
        intro z ty isConst mem
        obtain ⟨_, ⟨⟩, lt⟩ := h.global _ _ _ _ mem
        omega
      rcases List.mem_cons.1 hx with eqx | hx <;> rcases List.mem_cons.1 hy with eqy | hy
      · rw [(Prod.mk.inj eqx).1, (Prod.mk.inj eqy).1]
      · obtain ⟨⟩ := eqx
        exact absurd (behind _ _ _ hy) (Nat.lt_irrefl _)
      · obtain ⟨⟩ := eqy
        exact absurd (behind _ _ _ hx) (Nat.lt_irrefl _)
      · exact h.separate _ _ _ _ _ _ _ hx hy

theorem isNamed_foldl {d : Draft} (h : d.IsNamed) {items : List Item} (legal : LegalItems d items) :
    (items.foldl add d).IsNamed := by
  induction items generalizing d with
  | nil => exact h
  | cons i rest ih => exact ih (isNamed_add h legal.1) legal.2

/-! ### Sizes -/

theorem length_add_le {d : Draft} {i : Item} (legal : i.Legal d) :
    (d.add i).data.length + (d.add i).fns.length ≤ d.data.length + d.fns.length + i.tokens := by
  cases i with
  | fn f =>
    have := f.body.length_scope_le []
    rw [add, (addFn_eq legal).2, fns_addFn, List.length_append, List.length_singleton, Item.tokens]
    simp only [List.length_nil] at this
    omega
  | decl g =>
    have := g.length_texts_lt
    simp only [add, addDecl, Item.tokens, List.length_append, List.length_map, List.length_modify,
      List.length_singleton]
    omega

/-- Globals and functions are no more than tokens, apart from the functions that are always there. -/
theorem length_foldl_le {d : Draft} {items : List Item} (legal : LegalItems d items) :
    (items.foldl add d).data.length + (items.foldl add d).fns.length ≤
      d.data.length + d.fns.length + (items.map Item.tokens).sum := by
  induction items generalizing d with
  | nil => exact Nat.le_refl _
  | cons i rest ih =>
    have := length_add_le legal.1
    have := ih legal.2
    rw [List.foldl_cons, List.map_cons, List.sum_cons]
    omega

end Draft

/-! ### Calls -/

theorem LegalItems.append {d : Draft} {before after : List Item} (h : LegalItems d (before ++ after)) :
    LegalItems d before ∧ LegalItems (before.foldl Draft.add d) after := by
  induction before generalizing d with
  | nil => exact ⟨trivial, h⟩
  | cons i rest ih =>
    obtain ⟨first, second⟩ := ih h.2
    exact ⟨⟨h.1, first⟩, second⟩

/-- The function that has a name stands among the parts, behind as many globals as were counted. -/
theorem Item.find?_spec {x : String} {n k : Nat} {f : FnItem} {items : List Item} {d : Draft}
    (h : Item.find? x n items = some (f, k)) (legal : LegalItems d items) (data : d.data.length = n) :
    f.name.name = x ∧ ∃ before after, items = before ++ .fn f :: after ∧
      k = (before.foldl Draft.add d).data.length := by
  induction items generalizing d n with
  | nil => cases h
  | cons i rest ih =>
    cases i with
    | fn g =>
      rw [Item.find?] at h
      by_cases eq : g.name.name = x
      · rw [if_pos eq] at h
        obtain ⟨⟩ := h
        exact ⟨eq, [], rest, rfl, data.symm⟩
      · rw [if_neg eq] at h
        obtain ⟨name, before, after, items, count⟩ := ih h legal.2
          (by rw [Draft.add, (Draft.addFn_eq legal.1).2, data])
        exact ⟨name, .fn g :: before, after, by rw [items]; rfl, count⟩
    | decl g =>
      rw [Item.find?] at h
      obtain ⟨name, before, after, items, count⟩ := ih h legal.2
        (by simp [Draft.add, Draft.addDecl, data, Nat.add_assoc])
      exact ⟨name, .decl g :: before, after, by rw [items]; rfl, count⟩

namespace Program

variable {p : Program}

theorem Has.legal {d : Draft} {f : FnItem} (legal : p.Legal) (has : p.Has d f) : f.Legal d := by
  obtain ⟨before, after, items, rfl⟩ := has
  have := legal.1
  rw [items] at this
  exact this.append.2.1

/-- The layer of a whole program has what its functions see. -/
theorem Has.suffix {d : Draft} {f : FnItem} (legal : p.Legal) (has : p.Has d f) :
    ((f.name.name, .fn d.fns.length f.ret) :: d.outer) <:+ p.draft.outer := by
  have own := has.legal legal
  obtain ⟨before, after, items, rfl⟩ := has
  have all := legal.1
  rw [items] at all
  have later := Draft.suffix_foldl all.append.2.2
  change _ <:+ (p.items.foldl Draft.add .initial).outer
  rw [items, List.foldl_append, List.foldl_cons]
  rwa [Draft.add, (Draft.addFn_eq own).1] at later

theorem Legal.isNamed (legal : p.Legal) : p.draft.IsNamed :=
  have named := Draft.isNamed_foldl Draft.isNamed_initial legal.1
  ⟨named.nodup, named.global, named.separate⟩

/-- A name stands for one thing. -/
theorem Legal.unique (legal : p.Legal) {x : String} {b b' : Binding} (h : (x, b) ∈ p.draft.outer)
    (h' : (x, b') ∈ p.draft.outer) : b = b' :=
  congrArg Prod.snd (List.inj_on_of_nodup_map legal.isNamed.nodup h h' rfl)

theorem mem_library {f : LibraryFn} {i : Nat} (legal : p.Legal) (h : LibraryFn.all[i]? = some f) :
    (f.name, .fn i f.ret) ∈ p.draft.outer := by
  refine (Draft.suffix_foldl legal.1).mem (List.mem_cons_of_mem _ (List.mem_reverse.2 ?_))
  rw [List.mem_iff_getElem?]
  exact ⟨i, by rw [List.getElem?_mapIdx, h]; rfl⟩

/-- A name that stands for a library function has its number. -/
theorem Legal.library (legal : p.Legal) {x : String} {i : Nat} {ty : Ty} {f : LibraryFn}
    (mem : (x, .fn i ty) ∈ p.draft.outer) (h : p.callee? x = some (.library f)) :
    LibraryFn.all[i]? = some f ∧ ty = f.ret := by
  unfold callee? at h
  cases found : LibraryFn.all.find? (·.name = x) with
  | none =>
    rw [found] at h
    obtain ⟨_, _, ⟨⟩⟩ := Option.map_eq_some_iff.1 h
  | some g =>
    rw [found] at h
    obtain ⟨⟩ := h
    obtain rfl : f.name = x := by simpa using List.find?_some found
    obtain ⟨j, hj⟩ := List.mem_iff_getElem?.1 (List.mem_of_find?_eq_some found)
    obtain ⟨⟩ := legal.unique mem (mem_library legal hj)
    exact ⟨hj, rfl⟩

/-- A name that stands for a function of the program has the number of that function. -/
theorem Legal.declared (legal : p.Legal) {x : String} {i k : Nat} {ty : Ty} {f : FnItem}
    (mem : (x, .fn i ty) ∈ p.draft.outer) (h : p.callee? x = some (.declared f k)) :
    f.name.name = x ∧ ∃ d, p.Has d f ∧ i = d.fns.length ∧ k = d.data.length ∧ ty = f.ret := by
  unfold callee? at h
  cases found : LibraryFn.all.find? (·.name = x) with
  | some g =>
    rw [found] at h
    cases h
  | none =>
    rw [found] at h
    obtain ⟨⟨g, l⟩, item, ⟨⟩⟩ := Option.map_eq_some_iff.1 h
    obtain ⟨rfl, before, after, items, rfl⟩ := Item.find?_spec item legal.1 rfl
    have has : p.Has (before.foldl Draft.add .initial) f := ⟨before, after, items, rfl⟩
    obtain ⟨⟩ := legal.unique mem ((has.suffix legal).mem List.mem_cons_self)
    exact ⟨rfl, _, has, rfl, rfl, rfl⟩

/-- What the outer layer of a program says is right. -/
theorem Legal.isOf (legal : p.Legal) (small : p.draft.data.length ≤ 2 ^ 62) : p.draft.outer.IsOf p where
  nodup := legal.isNamed.nodup
  global x slot ty isConst mem := by
    obtain ⟨i, eq, lt⟩ := legal.isNamed.global x slot ty isConst mem
    exact ⟨i, eq, by omega⟩
  separate := legal.isNamed.separate
  ret x i ty f mem callee := by
    cases f with
    | library f => exact (legal.library mem callee).2
    | declared f k =>
      obtain ⟨-, -, -, -, -, ret⟩ := legal.declared mem callee
      exact ret

end Program

end CZero
