import CZero.Proofs.Codegen.Program
import Mathlib.Data.List.Forall2
import Mathlib.Data.Option.Basic

/-!
# What a symbol table says

A table numbers its symbols, finds names through scopes and functions through a list of numbers. All
that the rest of the compiler sees of it is a `View`: the names of the open layers with what they
stand for, the globals, and the functions. `t.Shows v` says that table `t` implements view `v`, and
each operation of tables has one lemma here that says what it does to the view.
-/

namespace CZero

/-- What a table says. -/
structure View where
  names : Names
  data : List Global
  fns : List FnInfo
deriving DecidableEq

/-- What a name stands for that stands for this symbol. A literal has no name, and only functions are
numbered as functions. -/
def Symbol.binding? (s : Symbol) : Option Binding :=
  match s.meaning, s.slot with
  | .value, .arg i => some (.var (.arg i) s.ty s.isConst)
  | .value, .loc i => some (.var (.loc i) s.ty s.isConst)
  | .value, .glob i => some (.var (.glob i) s.ty s.isConst)
  | .function info, .fn _ => some (.fn info.index info.ret)
  | _, _ => none

/-- Two states of one symbol: it has the same name, stands for the same, and takes the same global if it
takes one. -/
structure Symbol.Alike (s s' : Symbol) : Prop where
  name : s'.name = s.name
  layer : s'.layer = s.layer
  binding : s'.binding? = s.binding?
  isGlobal : s'.isGlobal = s.isGlobal
  globalOf : Analysis.globalOf s' = Analysis.globalOf s

namespace Symbol

theorem alike_markInit (s : Symbol) : s.Alike { s with isInit := true } :=
  ⟨rfl, rfl, rfl, rfl, rfl⟩

theorem alike_mapFunction (s : Symbol) {g : FnInfo → FnInfo} (index : ∀ f, (g f).index = f.index)
    (ret : ∀ f, (g f).ret = f.ret) : s.Alike (s.mapFunction g) := by
  obtain ⟨name, meaning, ty, layer, isConst, isInit, slot⟩ := s
  cases meaning with
  | value => exact ⟨rfl, rfl, rfl, rfl, rfl⟩
  | function f => exact ⟨rfl, rfl, by cases slot <;> simp [binding?, mapFunction, index, ret], rfl, rfl⟩
  | literal => exact ⟨rfl, rfl, rfl, rfl, rfl⟩

theorem value_of_binding? {s : Symbol} {slot : Slot} {ty : Ty} {isConst : Bool}
    (h : s.binding? = some (.var slot ty isConst)) :
    s.meaning = .value ∧ s.slot = slot ∧ s.ty = ty ∧ s.isConst = isConst ∧ ∀ i, slot ≠ .fn i := by
  obtain ⟨name, meaning, ty, layer, isConst, isInit, slot⟩ := s
  cases meaning <;> cases slot <;> cases h <;> simp

theorem function_of_binding? {s : Symbol} {index : Nat} {ret : Ty}
    (h : s.binding? = some (.fn index ret)) :
    ∃ info i, s.meaning = .function info ∧ s.slot = .fn i ∧ info.index = index ∧ info.ret = ret := by
  obtain ⟨name, meaning, ty, layer, isConst, isInit, slot⟩ := s
  cases meaning <;> cases slot <;> cases h
  exact ⟨_, _, rfl, rfl, rfl, rfl⟩

theorem function?_mapFunction (s : Symbol) (g : FnInfo → FnInfo) :
    (s.mapFunction g).function? = s.function?.map g := by
  obtain ⟨name, meaning, ty, layer, isConst, isInit, slot⟩ := s
  cases meaning <;> rfl

end Symbol

namespace Table

/-- A scope of layer `l` declares the names of a layer, in the same order. -/
def Bound (t : Table) (l : Nat) : Scope → Layer → Prop :=
  List.Forall₂ fun x y => x.1 = y.1 ∧ ∃ s, t.get? x.2 = some s ∧ s.layer = l ∧ s.binding? = some y.2

/-- A symbol number stands for a function, which the outer layer declares under the name of the symbol. -/
def Defines (t : Table) (outer : Layer) (id : Nat) (f : FnInfo) : Prop :=
  ∃ s, t.get? id = some s ∧ s.layer = 0 ∧ s.function? = some f ∧ (s.name, .fn f.index f.ret) ∈ outer

/-- A table says what the view says. -/
structure Shows (t : Table) (v : View) : Prop where
  fresh : ∀ e ∈ t.entries, e.1 < t.nextId
  scopes : ∃ outer inner, t.scopes = outer :: inner.toList ∧
    t.Bound 0 outer v.names.outer ∧ Option.Rel (t.Bound 1) inner v.names.inner
  data : t.globals.map Analysis.globalOf = v.data
  functions : List.Forall₂ (t.Defines v.names.outer) t.functions v.fns
  indices : v.fns.map (·.index) = List.range v.fns.length

/-! ### Symbols by number -/

theorem get?_insert {t : Table} {id : Nat} {s : Symbol} (new : Symbol) (h : t.get? id = some s) :
    (t.insert new).get? id = some s := by
  unfold get? insert at *
  rw [List.lookup_append, h, Option.some_or]

theorem get?_insert_self {t : Table} (fresh : ∀ e ∈ t.entries, e.1 < t.nextId) (s : Symbol) :
    (t.insert s).get? t.nextId = some s := by
  have none : t.entries.lookup t.nextId = none := by
    rw [List.lookup_eq_none_iff]
    intro e he
    exact bne_iff_ne.2 (Nat.ne_of_gt (fresh e he))
  unfold get? insert
  rw [List.lookup_append, none, Option.none_or, List.lookup_cons_self]

theorem get?_modify (t : Table) (id i : Nat) (f : Symbol → Symbol) :
    (t.modify id f).get? i = (t.get? i).map fun s => if i = id then f s else s := by
  unfold get? modify
  induction t.entries with
  | nil => rfl
  | cons e rest ih =>
    obtain ⟨j, s⟩ := e
    rw [List.map_cons, List.lookup_cons, List.lookup_cons, ih]
    by_cases h : i = j
    · subst h; simp
    · simp [beq_eq_false_iff_ne.2 h]

/-- The first symbol under a number is still the first when others are dropped. -/
theorem lookup_filter {α β : Type} [BEq α] [LawfulBEq α] {p : α × β → Bool} {a : α} {b : β}
    {l : List (α × β)} (h : l.lookup a = some b) (hp : p (a, b)) : (l.filter p).lookup a = some b := by
  induction l with
  | nil => cases h
  | cons e rest ih =>
    obtain ⟨a', b'⟩ := e
    rw [List.lookup_cons] at h
    by_cases eq : a = a'
    · subst eq
      simp only [beq_self_eq_true, Option.some.injEq] at h
      subst h
      rw [List.filter_cons_of_pos hp, List.lookup_cons_self]
    · rw [beq_eq_false_iff_ne.2 eq] at h
      rw [List.filter_cons]
      split
      · rw [List.lookup_cons, beq_eq_false_iff_ne.2 eq]
        exact ih h
      · exact ih h

theorem Bound.imp {t t' : Table} {l : Nat} {scope : Scope} {layer : Layer} (h : t.Bound l scope layer)
    (keep : ∀ id s, t.get? id = some s → s.layer = l →
      ∃ s', t'.get? id = some s' ∧ s'.layer = s.layer ∧ s'.binding? = s.binding?) :
    t'.Bound l scope layer := by
  refine List.Forall₂.imp ?_ h
  rintro x y ⟨name, s, get, layer, binding⟩
  obtain ⟨s', get', layer', binding'⟩ := keep _ s get layer
  exact ⟨name, s', get', layer'.trans layer, binding'.trans binding⟩

theorem rel_imp {α β : Type} {r r' : α → β → Prop} (h : ∀ a b, r a b → r' a b) {a : Option α}
    {b : Option β} (rel : Option.Rel r a b) : Option.Rel r' a b := by
  cases rel with
  | none => exact .none
  | some ab => exact .some (h _ _ ab)

theorem rel_or {α β : Type} {r : α → β → Prop} {a a' : Option α} {b b' : Option β}
    (h : Option.Rel r a b) (h' : Option.Rel r a' b') : Option.Rel r (a.or a') (b.or b') := by
  cases h with
  | none => exact h'
  | some ab => exact .some ab

theorem rel_isSome {α β : Type} {r : α → β → Prop} {a : Option α} {b : Option β}
    (h : Option.Rel r a b) : a.isSome = b.isSome := by
  cases h <;> rfl

/-! ### Finding -/

theorem Bound.lookup {t : Table} {l : Nat} {scope : Scope} {layer : Layer} (h : t.Bound l scope layer)
    (name : String) :
    Option.Rel (fun id b => ∃ s, t.get? id = some s ∧ s.binding? = some b)
      (scope.lookup name) (layer.lookup name) := by
  induction h with
  | nil => exact .none
  | @cons x y xs ys hxy rest ih =>
    obtain ⟨n, id⟩ := x
    obtain ⟨m, b⟩ := y
    obtain ⟨rfl, s, get, -, binding⟩ := hxy
    simp only [List.lookup_cons]
    by_cases eq : name = n
    · simp only [eq, beq_self_eq_true]
      exact .some ⟨s, get, binding⟩
    · simp only [beq_eq_false_iff_ne.2 eq]
      exact ih

/-- Looking a name up finds a symbol of what the name stands for. -/
theorem Shows.lookup {t : Table} {v : View} (h : t.Shows v) (name : String) :
    match v.names.find? name with
    | some b => ∃ id s, t.lookup name = .ok id ∧ t.get? id = some s ∧ s.binding? = some b
    | none => t.lookup name = .error (.notDeclared name) := by
  obtain ⟨outer, inner, scopes, ho, hi⟩ := h.scopes
  -- the innermost scope that declares the name decides
  have found : t.scopes.reverse.findSome? (·.lookup name)
      = (inner.bind (·.lookup name)).or (outer.lookup name) := by
    rw [scopes]
    cases inner with
    | none => simp
    | some scope =>
      cases hs : scope.lookup name <;> cases ho : outer.lookup name <;>
        simp [hs, ho]
  have rel : Option.Rel (fun id b => ∃ s, t.get? id = some s ∧ s.binding? = some b)
      ((inner.bind (·.lookup name)).or (outer.lookup name)) (v.names.find? name) := by
    unfold Names.find?
    have out := ho.lookup name
    generalize v.names.inner = layer at hi
    cases hi with
    | none => exact out
    | some bound => exact rel_or (bound.lookup name) out
  unfold Table.lookup
  rw [found]
  generalize (inner.bind (·.lookup name)).or (outer.lookup name) = x at rel
  generalize v.names.find? name = y at rel
  cases rel with
  | none => rfl
  | some hs =>
    obtain ⟨s, get, binding⟩ := hs
    exact ⟨_, s, rfl, get, binding⟩

theorem Shows.declares {t : Table} {v : View} (h : t.Shows v) (name : String) :
    t.declares t.layer name = v.names.declares name := by
  obtain ⟨outer, inner, scopes, ho, hi⟩ := h.scopes
  unfold Table.declares Table.layer Names.declares
  rw [scopes]
  generalize v.names.inner = layer at hi
  cases hi with
  | none => exact rel_isSome (ho.lookup name)
  | some bound => exact rel_isSome (bound.lookup name)

/-! ### Functions -/

theorem Shows.function {t : Table} {v : View} (h : t.Shows v) (k : Nat) :
    t.function k = match v.fns[k]? with
      | some f => .ok f
      | none => .error (noFunction k) := by
  unfold Table.function
  have rel := h.functions
  by_cases lt : k < t.functions.length
  · have lt' : k < v.fns.length := rel.length_eq ▸ lt
    obtain ⟨s, get, -, fn, -⟩ := rel.get lt lt'
    rw [List.getElem?_eq_getElem lt, List.getElem?_eq_getElem lt', Option.bind_some]
    rw [List.get_eq_getElem] at get
    rw [get, Option.bind_some, fn]
    rfl
  · have ge' : v.fns.length ≤ k := by rw [← rel.length_eq]; omega
    rw [List.getElem?_eq_none (by omega), List.getElem?_eq_none ge']
    rfl

/-- A function has the name that the outer layer declares it under. -/
theorem Shows.functionName? {t : Table} {v : View} (h : t.Shows v) {k : Nat} {f : FnInfo}
    (hf : v.fns[k]? = some f) :
    ∃ name, t.functionName? k = some name ∧ (name, .fn f.index f.ret) ∈ v.names.outer := by
  obtain ⟨lt', rfl⟩ := List.getElem?_eq_some_iff.1 hf
  have lt : k < t.functions.length := h.functions.length_eq ▸ lt'
  obtain ⟨s, get, -, -, mem⟩ := h.functions.get lt lt'
  refine ⟨s.name, ?_, mem⟩
  rw [List.get_eq_getElem] at get
  rw [Table.functionName?, List.getElem?_eq_getElem lt, Option.bind_some, get, Option.map_some]

theorem Shows.functionCount {t : Table} {v : View} (h : t.Shows v) : t.functionCount = v.fns.length :=
  h.functions.length_eq

theorem Shows.allFunctions {t : Table} {v : View} (h : t.Shows v) : t.allFunctions = v.fns := by
  unfold Table.allFunctions
  have rel := h.functions
  generalize t.functions = ids, v.fns = fs at rel
  induction rel with
  | nil => rfl
  | @cons id f ids fs hx rest ih =>
    obtain ⟨s, get, -, fn, -⟩ := hx
    rw [List.filterMap_cons, get, Option.bind_some, fn, ih]

theorem Shows.index_eq {t : Table} {v : View} (h : t.Shows v) {k : Nat} {f : FnInfo}
    (hf : v.fns[k]? = some f) : f.index = k := by
  have := congrArg (·[k]?) h.indices
  simp only [List.getElem?_map, hf, Option.map_some] at this
  rw [List.getElem?_range (List.getElem?_eq_some_iff.1 hf).1, Option.some.injEq] at this
  exact this

/-! ### Changing a symbol -/

theorem globals_eq_filterMap (t : Table) :
    t.globals.map Analysis.globalOf
      = t.entries.filterMap fun e => if e.2.isGlobal then some (Analysis.globalOf e.2) else none := by
  unfold globals
  induction t.entries with
  | nil => rfl
  | cons e rest ih =>
    simp only [List.map_cons, List.filter_cons, List.filterMap_cons]
    split <;> simp [*]

theorem globals_modify (t : Table) (id : Nat) {f : Symbol → Symbol}
    (alike : ∀ s : Symbol, s.Alike (f s)) :
    (t.modify id f).globals.map Analysis.globalOf = t.globals.map Analysis.globalOf := by
  rw [globals_eq_filterMap, globals_eq_filterMap, Table.modify, List.filterMap_map]
  congr 1
  funext e
  simp only [Function.comp_apply]
  split
  · rw [(alike e.2).isGlobal, (alike e.2).globalOf]
  · rfl

/-- A symbol changes but stands for the same. Only functions can be told apart then. -/
theorem Shows.modify {t : Table} {v : View} (h : t.Shows v) (id : Nat) {f : Symbol → Symbol}
    (alike : ∀ s : Symbol, s.Alike (f s)) {fns : List FnInfo}
    (functions : List.Forall₂ ((t.modify id f).Defines v.names.outer) t.functions fns)
    (indices : fns.map (·.index) = List.range fns.length) : (t.modify id f).Shows { v with fns } := by
  obtain ⟨outer, inner, scopes, ho, hi⟩ := h.scopes
  have keep : ∀ (l i : Nat) (s : Symbol), t.get? i = some s → s.layer = l →
      ∃ s', (t.modify id f).get? i = some s' ∧ s'.layer = s.layer ∧ s'.binding? = s.binding? := by
    intro l i s get _
    rw [get?_modify, get]
    refine ⟨_, rfl, ?_⟩
    split
    · exact ⟨(alike s).layer, (alike s).binding⟩
    · exact ⟨rfl, rfl⟩
  refine ⟨?_, ⟨outer, inner, scopes, ho.imp (keep 0), rel_imp (fun _ _ b => b.imp (keep 1)) hi⟩,
    (globals_modify t id alike).trans h.data, functions, indices⟩
  intro e he
  obtain ⟨e', he', rfl⟩ := List.mem_map.1 he
  exact h.fresh e' he'

theorem Shows.markInit {t : Table} {v : View} (h : t.Shows v) (id : Nat) : (t.markInit id).Shows v := by
  refine h.modify id Symbol.alike_markInit (List.Forall₂.imp ?_ h.functions) h.indices
  rintro i f ⟨s, get, layer, fn, name⟩
  refine ⟨_, by rw [get?_modify, get, Option.map_some], ?_⟩
  split <;> exact ⟨layer, fn, name⟩

/-- A function is changed through the symbol that its number stands for. -/
theorem modifyFunction_eq_ok {t t' : Table} {k : Nat} {g : FnInfo → FnInfo}
    (h : t.modifyFunction k g = .ok t') : ∃ id f, t.functions[k]? = some id ∧
      (t.get? id).bind Symbol.function? = some f ∧ t' = t.modify id (·.mapFunction g) := by
  unfold modifyFunction function at h
  cases number : t.functions[k]? with
  | none =>
    rw [number] at h
    cases h
  | some id =>
    rw [number, Option.bind_some] at h
    cases found : (t.get? id).bind Symbol.function? with
    | none =>
      rw [found] at h
      cases h
    | some f =>
      rw [found] at h
      cases h
      exact ⟨id, f, rfl, found, rfl⟩

/-- Patching changes the function of its site. -/
theorem modifyFunction_of_patch {t t' : Table} {site : Site} {operand : Int64}
    (h : t.patch site operand = .ok t') :
    t.modifyFunction site.function (·.setOperand site.position operand) = .ok t' := by
  unfold patch at h
  cases function : t.function site.function with
  | error cause =>
    rw [function] at h
    cases h
  | ok info =>
    rw [function] at h
    simp only [bind, Except.bind] at h
    split at h
    · exact h
    · cases h

/-- A function changes where it is; its number and its result type stay. -/
theorem Shows.modifyFunction {t : Table} {v : View} (h : t.Shows v) {k : Nat} {f : FnInfo}
    (hf : v.fns[k]? = some f) {g : FnInfo → FnInfo} (index : ∀ f, (g f).index = f.index)
    (ret : ∀ f, (g f).ret = f.ret) :
    ∃ t', t.modifyFunction k g = .ok t' ∧ t'.Shows { v with fns := v.fns.modify k g } := by
  obtain ⟨lt', -⟩ := List.getElem?_eq_some_iff.1 hf
  have lt : k < t.functions.length := h.functions.length_eq ▸ lt'
  refine ⟨t.modify t.functions[k] (·.mapFunction g), ?_, ?_⟩
  · simp [Table.modifyFunction, h.function k, hf, List.getElem?_eq_getElem lt, bind, Except.bind, pure,
      Except.pure]
  refine h.modify _ (Symbol.alike_mapFunction · index ret) ?_ ?_
  · refine List.forall₂_iff_get.2 ⟨by rw [List.length_modify, h.functions.length_eq], ?_⟩
    intro i hi hi'
    rw [List.length_modify] at hi'
    obtain ⟨s, get, layer, fn, name⟩ := h.functions.get hi hi'
    simp only [List.get_eq_getElem] at get fn name ⊢
    refine ⟨_, by rw [get?_modify, get, Option.map_some], ?_⟩
    rw [List.getElem_modify]
    by_cases eq : k = i
    · subst eq
      have alike := Symbol.alike_mapFunction s index ret
      rw [if_pos rfl, if_pos rfl, Symbol.function?_mapFunction, fn, index, ret, alike.name]
      exact ⟨alike.layer.trans layer, rfl, name⟩
    · -- two functions with one symbol would be one function with two numbers
      have ne : t.functions[i] ≠ t.functions[k] := by
        intro same
        obtain ⟨s', get', -, fn', -⟩ := h.functions.get lt lt'
        simp only [List.get_eq_getElem] at get' fn'
        rw [← same, get, Option.some.injEq] at get'
        subst get'
        rw [fn, Option.some.injEq] at fn'
        have i_eq := h.index_eq (List.getElem?_eq_getElem hi')
        have k_eq := h.index_eq (List.getElem?_eq_getElem lt')
        rw [fn', k_eq] at i_eq
        exact eq i_eq
      rw [if_neg ne, if_neg eq]
      exact ⟨layer, fn, name⟩
  · rw [List.length_modify, ← h.indices]
    refine List.ext_getElem (by simp) fun i _ _ => ?_
    rw [List.getElem_map, List.getElem_map, List.getElem_modify]
    split
    · exact index _
    · rfl

/-! ### New symbols -/

theorem Shows.insert {t : Table} {v : View} (h : t.Shows v) (s : Symbol) :
    (t.insert s).Shows
      { v with data := v.data ++ if s.isGlobal then [Analysis.globalOf s] else [] } := by
  obtain ⟨outer, inner, scopes, ho, hi⟩ := h.scopes
  have keep : ∀ (l id : Nat) (s' : Symbol), t.get? id = some s' → s'.layer = l →
      ∃ s'', (t.insert s).get? id = some s'' ∧ s''.layer = s'.layer ∧ s''.binding? = s'.binding? :=
    fun _ _ s' get _ => ⟨s', get?_insert s get, rfl, rfl⟩
  refine ⟨?_, ⟨outer, inner, scopes, ho.imp (keep 0), rel_imp (fun _ _ b => b.imp (keep 1)) hi⟩, ?_,
    List.Forall₂.imp ?_ h.functions, h.indices⟩
  · intro e he
    rcases List.mem_append.1 he with he | he
    · exact Nat.lt_succ_of_lt (h.fresh e he)
    · rw [List.mem_singleton.1 he]
      exact Nat.lt_succ_self _
  · rw [globals_eq_filterMap, Table.insert, List.filterMap_append, ← globals_eq_filterMap, h.data]
    split <;> simp [*]
  · rintro id f ⟨s', get, layer, fn, name⟩
    exact ⟨s', get?_insert s get, layer, fn, name⟩

theorem Shows.globalCount {t : Table} {v : View} (h : t.Shows v) : t.globalCount = v.data.length := by
  rw [← h.data, List.length_map]
  rfl

/-- A string literal takes the next global. -/
theorem Shows.declareLiteral {t : Table} {v : View} (h : t.Shows v) (text : String) :
    ∃ t', t.declareLiteral text = (v.data.length, t') ∧
      t'.Shows { v with data := v.data ++ [.ofText text] } :=
  ⟨_, by rw [Table.declareLiteral, h.globalCount], h.insert (.ofLiteral text v.data.length)⟩

theorem Defines.mono {t : Table} {outer outer' : Layer} (h : outer ⊆ outer') (id : Nat) (f : FnInfo)
    (defines : t.Defines outer id f) : t.Defines outer' id f := by
  obtain ⟨s, get, layer, fn, name⟩ := defines
  exact ⟨s, get, layer, fn, h name⟩

theorem outer_subset_bind (names : Names) (name : String) (b : Binding) :
    names.outer ⊆ (names.bind name b).outer := by
  unfold Names.bind
  split
  · exact List.Subset.refl _
  · exact List.subset_cons_self _ _

theorem Shows.bindName {t : Table} {v : View} (h : t.Shows v) {id : Nat} {s : Symbol} {b : Binding}
    (name : String) (get : t.get? id = some s) (layer : s.layer = t.layer)
    (binding : s.binding? = some b) :
    (t.bindName t.layer name id).Shows { v with names := v.names.bind name b } := by
  obtain ⟨outer, inner, scopes, ho, hi⟩ := h.scopes
  refine ⟨h.fresh, ?_, h.data, h.functions.imp (Defines.mono (outer_subset_bind v.names name b)), h.indices⟩
  rw [Table.layer, scopes] at layer
  have new : ∀ l, s.layer = l → name = name ∧ ∃ s, t.get? id = some s ∧ s.layer = l ∧ s.binding? = some b :=
    fun l hl => ⟨rfl, s, get, hl, binding⟩
  simp only [Table.bindName, Table.layer, scopes, Names.bind]
  generalize v.names.inner = x at hi
  cases hi with
  | none => exact ⟨(name, id) :: outer, none, rfl, .cons (new 0 layer) ho, .none⟩
  | @some scope _ bound =>
    exact ⟨outer, some ((name, id) :: scope), rfl, ho, .some (.cons (new 1 layer) bound)⟩

/-- A variable can be declared if its name is new in the innermost layer. Outside of functions it takes
the next global. -/
theorem Shows.declare_variable {t : Table} {v : View} (h : t.Shows v) {s : Symbol}
    (binding : s.binding? = some (.var s.slot s.ty s.isConst)) (layer : s.layer = t.layer) :
    if v.names.declares s.name then t.declare s = .error (.duplicateDeclaration s.name)
    else ∃ id t', t.declare s = .ok (id, t') ∧ t'.Shows
      { v with
        names := v.names.bind s.name (.var s.slot s.ty s.isConst)
        data := v.data ++ if v.names.inner.isSome then [] else [.scalar s.isConst] } := by
  obtain ⟨value, -⟩ := Symbol.value_of_binding? binding
  have collides : t.collides s t.layer = v.names.declares s.name := by
    rw [Table.collides, value]
    exact h.declares s.name
  simp only [Table.declare, layer, Nat.min_self, collides, value]
  split
  · rfl
  refine ⟨_, _, rfl, ?_⟩
  have self : { s with meaning := .value, layer := t.layer } = s := by rw [← layer, ← value]
  have data : (if s.isGlobal then [Analysis.globalOf s] else [])
      = if v.names.inner.isSome then [] else [.scalar s.isConst] := by
    obtain ⟨outer, inner, scopes, -, hi⟩ := h.scopes
    rw [← rel_isSome hi, Symbol.isGlobal, Symbol.function?, Analysis.globalOf, value, layer, Table.layer,
      scopes]
    cases inner <;> rfl
  have inserted := h.insert s
  rw [data] at inserted
  rw [self]
  exact inserted.bindName s.name (get?_insert_self h.fresh s) layer binding

theorem Shows.bindFunction {t : Table} {v : View} (h : t.Shows v) {id : Nat} {f : FnInfo}
    (defines : t.Defines v.names.outer id f) (index : f.index = v.fns.length) :
    (t.bindFunction f.index id).Shows { v with fns := v.fns ++ [f] } := by
  have functions : (t.bindFunction f.index id).functions = t.functions ++ [id] := by
    rw [Table.bindFunction, index, ← h.functions.length_eq]
    simp
  refine ⟨h.fresh, h.scopes, h.data, ?_, ?_⟩
  · rw [functions]
    exact List.rel_append h.functions (.cons defines .nil)
  · rw [List.map_append, h.indices, List.length_append, List.length_singleton, List.range_succ,
      List.map_singleton, index]

theorem Shows.layer_eq {t : Table} {v : View} (h : t.Shows v) :
    t.layer = if v.names.inner.isSome then 1 else 0 := by
  obtain ⟨outer, inner, scopes, -, hi⟩ := h.scopes
  rw [← rel_isSome hi, Table.layer, scopes]
  cases inner <;> rfl

theorem Shows.addInitial {t : Table} {v : View} (h : t.Shows v) (name : String) {f : FnInfo}
    (index : f.index = v.fns.length) (outside : v.names.inner = none) :
    (t.addInitial name f).Shows
      { v with names := v.names.bind name (.fn f.index f.ret), fns := v.fns ++ [f] } := by
  have layer : t.layer = 0 := by rw [h.layer_eq, outside]; rfl
  have inserted := h.insert (.ofFunction name f)
  simp only [show (Symbol.ofFunction name f).isGlobal = false from rfl, Bool.false_eq_true, if_false,
    List.append_nil] at inserted
  have get := get?_insert_self h.fresh (.ofFunction name f)
  have named := inserted.bindName name get layer.symm rfl
  have declared : (name, .fn f.index f.ret) ∈ (v.names.bind name (.fn f.index f.ret)).outer := by
    rw [Names.bind, outside]
    exact List.mem_cons_self
  have bound := named.bindFunction ⟨_, get, rfl, rfl, declared⟩ index
  rwa [show (t.insert (.ofFunction name f)).layer = 0 from layer] at bound

/-- A function can be declared outside of functions if its name is new. -/
theorem Shows.declare_function {t : Table} {v : View} (h : t.Shows v) (name : String) {f : FnInfo}
    (index : f.index = v.fns.length) (outside : v.names.inner = none) :
    if v.names.declares name then
      t.declare (.ofFunction name f) = .error (.duplicateDeclaration name)
    else ∃ id t', t.declare (.ofFunction name f) = .ok (id, t') ∧
      t'.Shows { v with names := v.names.bind name (.fn f.index f.ret), fns := v.fns ++ [f] } := by
  have layer : t.layer = 0 := by rw [h.layer_eq, outside]; rfl
  have collides : t.collides (.ofFunction name f) 0 = v.names.declares name := by
    obtain ⟨outer, inner, scopes, -, hi⟩ := h.scopes
    rw [outside] at hi
    cases hi
    rw [← h.declares name, layer]
    simp [Table.collides, Symbol.ofFunction, Table.declares, scopes]
  have min_layer : min (Symbol.ofFunction name f).layer t.layer = 0 := Nat.zero_min _
  simp only [Table.declare, min_layer, collides]
  split
  · rfl
  · exact ⟨_, _, rfl, h.addInitial name index outside⟩

/-! ### Scopes -/

theorem Shows.openScope {t : Table} {v : View} (h : t.Shows v) (outside : v.names.inner = none) :
    t.openScope.Shows { v with names := { v.names with inner := some [] } } := by
  obtain ⟨outer, inner, scopes, ho, hi⟩ := h.scopes
  rw [outside] at hi
  cases hi
  refine ⟨h.fresh, ⟨outer, some [], ?_, ho, .some .nil⟩, h.data, h.functions, h.indices⟩
  rw [Table.openScope, scopes]
  rfl

/-- The names of a function go with its scope. Globals, literals and functions stay. -/
theorem Shows.closeScope {t : Table} {v : View} (h : t.Shows v) (inside : v.names.inner.isSome) :
    (t.closeScope 1).2.Shows { v with names := { v.names with inner := none } } := by
  obtain ⟨outer, inner, scopes, ho, hi⟩ := h.scopes
  rw [← rel_isSome hi] at inside
  obtain ⟨scope, rfl⟩ := Option.isSome_iff_exists.1 inside
  have closed : (t.closeScope 1).2
      = { t with entries := t.entries.filter (·.2.layer != 1), scopes := [outer] } := by
    simp [Table.closeScope, Table.layer, scopes]
  have keep : ∀ id s, t.get? id = some s → s.layer = 0 → (t.closeScope 1).2.get? id = some s := by
    intro id s get layer
    rw [closed]
    exact lookup_filter get (by simp [layer])
  refine ⟨?_, ⟨outer, none, by rw [closed]; rfl, ho.imp ?_, .none⟩, ?_, ?_, h.indices⟩
  · rw [closed]
    exact fun e he => h.fresh e (List.mem_of_mem_filter he)
  · exact fun id s get layer => ⟨s, keep id s get layer, rfl, rfl⟩
  · -- a global has layer 0, so it is among the entries that stay
    rw [← h.data, globals_eq_filterMap, globals_eq_filterMap, closed, List.filterMap_filter]
    congr 1
    funext e
    by_cases global : e.2.isGlobal
    · have : e.2.layer = 0 := by
        simp only [Symbol.isGlobal, Bool.and_eq_true, beq_iff_eq] at global
        exact global.1
      simp [this]
    · simp [global]
  · have functions : (t.closeScope 1).2.functions = t.functions := by rw [closed]
    rw [functions]
    refine List.Forall₂.imp ?_ h.functions
    rintro id f ⟨s, get, layer, fn, name⟩
    exact ⟨s, keep id s get layer, layer, fn, name⟩

/-! ### The initial table -/

theorem shows_empty : empty.Shows ⟨⟨[], none⟩, [], []⟩ :=
  ⟨nofun, ⟨[], none, rfl, .nil, .none⟩, rfl, .nil, rfl⟩

/-- The functions of the library are added one by one, each behind the last. -/
theorem Shows.addLibrary {t : Table} {outer : Layer} {data : List Global} {fns : List FnInfo}
    (fs : List LibraryFn) (h : t.Shows ⟨⟨outer, none⟩, data, fns⟩) :
    ((fs.mapIdx fun i f => (fns.length + i, f)).foldl
        (fun t (i, f) => t.addInitial f.name (libraryInfo i f)) t).Shows
      ⟨⟨(fs.mapIdx fun i f => (f.name, .fn (fns.length + i) f.ret)).reverse ++ outer, none⟩, data,
        fns ++ fs.mapIdx fun i f => libraryInfo (fns.length + i) f⟩ := by
  induction fs generalizing t outer fns with
  | nil => simpa using h
  | cons f fs ih =>
    have step := ih (h.addInitial (f := libraryInfo fns.length f) f.name rfl rfl)
    simpa [List.mapIdx_cons, Names.bind, libraryInfo, Nat.add_assoc, Nat.add_comm 1] using step

theorem shows_initial : initial.Shows ⟨⟨Draft.initial.outer, none⟩, [], Draft.initial.fns⟩ := by
  have library := shows_empty.addLibrary LibraryFn.all
  have entry := library.addInitial entryName (f := .declared entryIndex .void []) (by simp; rfl) rfl
  simpa [initial, Draft.initial, Names.bind, FnInfo.declared] using entry

end Table

end CZero
