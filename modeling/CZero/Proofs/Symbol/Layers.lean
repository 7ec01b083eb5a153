import CZero.Proofs.Symbol.View
import Mathlib.Data.Finmap

/-!
# A symbol table is a stack of finite maps

Seen through names, a table is a stack of finite maps from names to symbol numbers, one map for each
open layer (`Layers`). A `Change` is a call of one of the operations that change a table. Main
statement (`Table.refines_after`): after every sequence of changes to a fresh table, lookups,
declarations and the closing of layers answer as the stack says (`Table.Refines`).

The induction is over the changes. It carries `Table.Keeps`: the scopes are the maps of the stack, and
each number in a scope is stored, under the name and in the layer of that scope.
-/

namespace CZero

/-- A call of an operation that changes a table. -/
inductive Change where
  | openScope
  | declare (s : Symbol)
  | declareLiteral (text : String)
  | markInit (id : Nat)
  | addLocal (function : Nat) (name : String)
  | append (function : Nat) (i : Instr)
  | insertInstr (function : Nat) (i : Instr) (position : Nat)
  | placeholder (function : Nat) (op : Opcode)
  | patch (site : Site) (operand : Int64)
  | closeScope (layer : Nat)

namespace Change

/-- The table that a change leads to, if it does not fail. -/
def result (t : Table) : Change → Except Cause Table
  | openScope => .ok t.openScope
  | declare s => (t.declare s).map (·.2)
  | declareLiteral text => .ok (t.declareLiteral text).2
  | markInit id => .ok (t.markInit id)
  | addLocal function name => (t.addLocal function name).map (·.2)
  | append function i => (t.append function i).map (·.2)
  | insertInstr function i position => t.insertInstr function i position
  | placeholder function op => (t.placeholder function op).map (·.2)
  | patch site operand => t.patch site operand
  | closeScope layer => .ok (t.closeScope layer).2

/-- Whether the change names nothing and closes nothing: a string literal, a note that a symbol has a
value, or an edit of a function's locals or code. -/
def isNameless : Change → Bool
  | openScope | declare _ | closeScope _ => false
  | _ => true

end Change

/-- The table after a change. One that fails changes nothing. -/
def Table.after (t : Table) (c : Change) : Table :=
  match c.result t with
  | .ok t' => t'
  | .error _ => t

/-- The open layers as finite maps from names to symbol numbers, the global layer first, and the number
of the next symbol. -/
structure Layers where
  maps : List (Finmap fun _ : String => Nat)
  nextId : Nat

namespace Layers

/-- The innermost open layer. -/
def top (ls : Layers) : Nat :=
  ls.maps.length - 1

/-- Layer `l` has the name, with the given number. -/
def Has (ls : Layers) (l : Nat) (name : String) (id : Nat) : Prop :=
  ∃ m, ls.maps[l]? = some m ∧ m.lookup name = some id

/-- Whether the name of a symbol is taken: that of a function in any layer, that of a variable in the
layer that it is to be declared in, which is the innermost one if its own is not open. -/
def Taken (ls : Layers) (s : Symbol) : Prop :=
  if s.function?.isSome then ∃ l id, ls.Has l s.name id else ∃ id, ls.Has (min s.layer ls.top) s.name id

/-- What looking a name up has to answer: the number in the innermost layer that has the name. -/
inductive Answers (ls : Layers) (name : String) : Except Cause Nat → Prop
  | found {l id : Nat} (has : ls.Has l name id) (innermost : ∀ l' id', l < l' → ¬ ls.Has l' name id') :
      Answers ls name (.ok id)
  | missing (none : ∀ l id, ¬ ls.Has l name id) : Answers ls name (.error (.notDeclared name))

/-- Only the layers outside of layer `l`. -/
def below (ls : Layers) (l : Nat) : Layers :=
  { ls with maps := ls.maps.take l }

open scoped Classical in
/-- The stack after a change. -/
noncomputable def after (ls : Layers) : Change → Layers
  | .openScope => { ls with maps := ls.maps ++ [∅] }
  | .declare s =>
    if ls.Taken s then ls
    else ⟨ls.maps.modify (min s.layer ls.top) (·.insert s.name ls.nextId), ls.nextId + 1⟩
  | .declareLiteral _ => { ls with nextId := ls.nextId + 1 }
  | .closeScope l => if 1 ≤ l ∧ l ≤ ls.top then ls.below l else ls
  | _ => ls

/-- The stack of a fresh table: one layer with the library and the function that programs start in. -/
def initial : Layers :=
  let names := LibraryFn.all.map (·.name) ++ [entryName]
  ⟨[names.zipIdx.foldl (fun m x => m.insert x.1 x.2) ∅], names.length⟩

end Layers

namespace Table

/-- A table answers as a stack of finite maps says. -/
structure Refines (t : Table) (ls : Layers) : Prop where
  layer : t.layer = ls.top
  lookup : ∀ name, ls.Answers name (t.lookup name)
  /-- The number that is found is stored, under an entry with that name and that layer. -/
  stored : ∀ name l id, ls.Has l name id → ∃ s, t.get? id = some s ∧ s.name = name ∧ s.layer = l
  duplicate : ∀ s, t.declare s = .error (.duplicateDeclaration s.name) ↔ ls.Taken s
  declared : ∀ s, ¬ ls.Taken s → ∃ t', t.declare s = .ok (ls.nextId, t')
  unchanged : ∀ s, ls.Taken s → t.after (.declare s) = t
  closed : ∀ l, 1 ≤ l → l ≤ ls.top → ∀ name, (ls.below l).Answers name ((t.closeScope l).2.lookup name)
  notClosed : ∀ l, ¬ (1 ≤ l ∧ l ≤ ls.top) → t.closeScope l = (0, t)
  nameless : ∀ c : Change, c.isNameless → ∀ name, (t.after c).lookup name = t.lookup name

/-- A scope and a finite map have the same names with the same numbers. -/
def Same (scope : Scope) (m : Finmap fun _ : String => Nat) : Prop :=
  ∀ name, scope.lookup name = m.lookup name

/-- The scopes of a table are the maps of a stack, and all that they name is stored. -/
structure Keeps (t : Table) (ls : Layers) : Prop where
  fresh : ∀ e ∈ t.entries, e.1 < t.nextId
  next : t.nextId = ls.nextId
  nonempty : t.scopes ≠ []
  maps : List.Forall₂ Same t.scopes ls.maps
  stored : ∀ l scope, t.scopes[l]? = some scope → ∀ x ∈ scope,
    ∃ s, t.get? x.2 = some s ∧ s.name = x.1 ∧ s.layer = l

/-! ### Scopes and maps -/

theorem same_empty : Same [] ∅ := by
  intro name
  rw [List.lookup_nil, Finmap.lookup_empty]

theorem Same.cons {scope : Scope} {m : Finmap fun _ : String => Nat} (h : Same scope m) (name : String)
    (id : Nat) : Same ((name, id) :: scope) (m.insert name id) := by
  intro x
  by_cases eq : x = name
  · subst eq
    rw [List.lookup_cons_self, Finmap.lookup_insert]
  · rw [List.lookup_cons, beq_eq_false_iff_ne.2 eq, Finmap.lookup_insert_of_ne _ eq]
    exact h x

theorem Same.foldl {scope : Scope} {m : Finmap fun _ : String => Nat} (h : Same scope m)
    (xs : List (String × Nat)) :
    Same (xs.reverse ++ scope) (xs.foldl (fun m x => m.insert x.1 x.2) m) := by
  induction xs generalizing scope m with
  | nil => exact h
  | cons x xs ih =>
    have step := ih (h.cons x.1 x.2)
    simpa using step

theorem Keeps.layer {t : Table} {ls : Layers} (h : t.Keeps ls) : t.layer = ls.top := by
  rw [Table.layer, Layers.top, h.maps.length_eq]

theorem Keeps.has_iff {t : Table} {ls : Layers} (h : t.Keeps ls) {l id : Nat} {name : String} :
    ls.Has l name id ↔ ∃ scope, t.scopes[l]? = some scope ∧ scope.lookup name = some id := by
  constructor
  · rintro ⟨m, hm, found⟩
    obtain ⟨lt, rfl⟩ := List.getElem?_eq_some_iff.1 hm
    have lt' : l < t.scopes.length := h.maps.length_eq ▸ lt
    have same : Same t.scopes[l] ls.maps[l] := h.maps.get lt' lt
    exact ⟨_, List.getElem?_eq_getElem lt', (same name).trans found⟩
  · rintro ⟨scope, hs, found⟩
    obtain ⟨lt, rfl⟩ := List.getElem?_eq_some_iff.1 hs
    have lt' : l < ls.maps.length := h.maps.length_eq ▸ lt
    have same : Same t.scopes[l] ls.maps[l] := h.maps.get lt lt'
    exact ⟨_, List.getElem?_eq_getElem lt', (same name).symm.trans found⟩

theorem Keeps.exists_of_has {t : Table} {ls : Layers} (h : t.Keeps ls) {l id : Nat} {name : String}
    (has : ls.Has l name id) : ∃ s, t.get? id = some s ∧ s.name = name ∧ s.layer = l := by
  obtain ⟨scope, hs, found⟩ := h.has_iff.1 has
  obtain ⟨l₁, l₂, rfl, -⟩ := List.lookup_eq_some_iff.1 found
  exact h.stored l _ hs (name, id) (by simp)

/-- The search through the scopes from the last to the first stops at the innermost layer that has the
name. -/
theorem Keeps.answers {t : Table} {ls : Layers} (h : t.Keeps ls) (name : String) :
    ls.Answers name (t.lookup name) := by
  unfold Table.lookup
  cases found : t.scopes.reverse.findSome? (·.lookup name) with
  | none =>
    refine .missing fun l id has => ?_
    obtain ⟨scope, hs, found'⟩ := h.has_iff.1 has
    have none := List.findSome?_eq_none_iff.1 found scope (List.mem_reverse.2 (List.mem_of_getElem? hs))
    rw [none] at found'
    cases found'
  | some id =>
    obtain ⟨inner, scope, outer, split, here, before⟩ := List.findSome?_eq_some_iff.1 found
    have scopes : t.scopes = outer.reverse ++ scope :: inner.reverse := by
      simpa using congrArg List.reverse split
    refine .found (l := outer.length) (h.has_iff.2 ⟨scope, by simp [scopes], here⟩) ?_
    intro l' id' lt has
    obtain ⟨scope', hs, found'⟩ := h.has_iff.1 has
    rw [scopes, List.getElem?_append_right (by simp; omega), List.length_reverse] at hs
    obtain ⟨k, hk⟩ : ∃ k, l' - outer.length = k + 1 := ⟨l' - outer.length - 1, by omega⟩
    rw [hk, List.getElem?_cons_succ] at hs
    have none := before scope' (List.mem_reverse.1 (List.mem_of_getElem? hs))
    rw [none] at found'
    cases found'

/-! ### Changes that name nothing -/

/-- Symbols may be new and symbols may have changed, as long as no scope did and no symbol its name or its
layer. -/
theorem Keeps.of_entries {t t' : Table} {ls ls' : Layers} (h : t.Keeps ls)
    (fresh : ∀ e ∈ t'.entries, e.1 < t'.nextId) (next : t'.nextId = ls'.nextId)
    (scopes : t'.scopes = t.scopes) (maps : ls'.maps = ls.maps)
    (keep : ∀ id s, t.get? id = some s →
      ∃ s', t'.get? id = some s' ∧ s'.name = s.name ∧ s'.layer = s.layer) : t'.Keeps ls' := by
  refine ⟨fresh, next, scopes ▸ h.nonempty, by rw [scopes, maps]; exact h.maps, ?_⟩
  intro l scope hs x hx
  rw [scopes] at hs
  obtain ⟨s, get, name, layer⟩ := h.stored l scope hs x hx
  obtain ⟨s', get', name', layer'⟩ := keep _ s get
  exact ⟨s', get', name'.trans name, layer'.trans layer⟩

theorem Keeps.insert {t : Table} {ls : Layers} (h : t.Keeps ls) (s : Symbol) :
    (t.insert s).Keeps { ls with nextId := ls.nextId + 1 } := by
  refine h.of_entries ?_ (congrArg (· + 1) h.next) rfl rfl
    fun id s' get => ⟨s', get?_insert s get, rfl, rfl⟩
  intro e he
  rcases List.mem_append.1 he with he | he
  · exact Nat.lt_succ_of_lt (h.fresh e he)
  · rw [List.mem_singleton.1 he]
    exact Nat.lt_succ_self _

theorem Keeps.modify {t : Table} {ls : Layers} (h : t.Keeps ls) (id : Nat) {f : Symbol → Symbol}
    (name : ∀ s, (f s).name = s.name) (layer : ∀ s, (f s).layer = s.layer) : (t.modify id f).Keeps ls := by
  refine h.of_entries ?_ h.next rfl rfl ?_
  · intro e he
    obtain ⟨e', he', rfl⟩ := List.mem_map.1 he
    exact h.fresh e' he'
  · intro i s get
    rw [get?_modify, get]
    refine ⟨_, rfl, ?_⟩
    split
    · exact ⟨name s, layer s⟩
    · exact ⟨rfl, rfl⟩

theorem snd_of_bind {α β γ : Type} {x : Except Cause α} {y : Except Cause γ} {b : α → β} {c : γ}
    (h : (do let a ← x; return (b a, ← y)).map Prod.snd = Except.ok c) : y = .ok c := by
  rcases x with e | a
  · cases h
  · rcases y with e | c'
    · cases h
    · exact h

/-- An edit changes one symbol, which keeps its name and its layer. -/
theorem exists_modify {t t' : Table} {c : Change} (nameless : c.isNameless)
    (literal : ∀ text, c ≠ .declareLiteral text) (h : c.result t = .ok t') :
    ∃ id f, t' = t.modify id f ∧ ∀ s : Symbol, (f s).name = s.name ∧ (f s).layer = s.layer := by
  have edit : ∀ {k : Nat} {g : FnInfo → FnInfo}, t.modifyFunction k g = .ok t' →
      ∃ id f, t' = t.modify id f ∧ ∀ s : Symbol, (f s).name = s.name ∧ (f s).layer = s.layer := by
    intro k g eq
    obtain ⟨id, -, -, -, rfl⟩ := modifyFunction_eq_ok eq
    refine ⟨id, _, rfl, fun s => ?_⟩
    rw [Symbol.mapFunction]
    split <;> exact ⟨rfl, rfl⟩
  cases c with
  | openScope | declare | closeScope => cases nameless
  | declareLiteral text => exact absurd rfl (literal text)
  | markInit id =>
    cases h
    exact ⟨id, _, rfl, fun s => ⟨rfl, rfl⟩⟩
  | addLocal k name => exact edit (snd_of_bind h)
  | append k i => exact edit (snd_of_bind h)
  | insertInstr k i position => exact edit h
  | placeholder k op =>
    have appended : (t.append k (.plain op)).map (·.2) = .ok t' := by
      rw [← h, Change.result, Table.placeholder]
      cases t.append k (.plain op) <;> rfl
    exact edit (snd_of_bind appended)
  | patch site operand => exact edit (modifyFunction_of_patch h)

theorem after_eq_self {t : Table} {c : Change} {e : Cause} (h : c.result t = .error e) : t.after c = t := by
  rw [after, h]

theorem after_eq {t t' : Table} {c : Change} (h : c.result t = .ok t') : t.after c = t' := by
  rw [after, h]

theorem scopes_after {c : Change} (nameless : c.isNameless) (t : Table) : (t.after c).scopes = t.scopes := by
  rcases h : c.result t with e | t'
  · rw [after_eq_self h]
  · rw [after_eq h]
    by_cases literal : ∃ text, c = .declareLiteral text
    · obtain ⟨text, rfl⟩ := literal
      cases h
      rfl
    · obtain ⟨id, f, rfl, -⟩ := exists_modify nameless (by simpa using literal) h
      rfl

theorem lookup_after {c : Change} (nameless : c.isNameless) (t : Table) (name : String) :
    (t.after c).lookup name = t.lookup name := by
  rw [Table.lookup, Table.lookup, scopes_after nameless]

theorem Keeps.nameless {t : Table} {ls : Layers} (h : t.Keeps ls) {c : Change} (nameless : c.isNameless) :
    (t.after c).Keeps (ls.after c) := by
  by_cases literal : ∃ text, c = .declareLiteral text
  · obtain ⟨text, rfl⟩ := literal
    exact h.insert _
  have same : ls.after c = ls := by
    cases c with
    | openScope | declare | closeScope => cases nameless
    | declareLiteral text => exact absurd ⟨text, rfl⟩ literal
    | _ => rfl
  rw [same]
  rcases res : c.result t with e | t'
  · rwa [after_eq_self res]
  · obtain ⟨id, f, eq, keep⟩ := exists_modify nameless (by simpa using literal) res
    rw [after_eq res, eq]
    exact h.modify id (fun s => (keep s).1) (fun s => (keep s).2)

/-! ### Layers -/

theorem Keeps.openScope {t : Table} {ls : Layers} (h : t.Keeps ls) :
    t.openScope.Keeps { ls with maps := ls.maps ++ [∅] } := by
  refine ⟨h.fresh, h.next, by simp [Table.openScope], ?_, ?_⟩
  · exact List.rel_append h.maps (.cons same_empty .nil)
  · intro l scope hs x hx
    rw [Table.openScope, List.getElem?_append] at hs
    split at hs
    · exact h.stored l scope hs x hx
    · have empty : scope = [] := by simpa using List.mem_of_getElem? hs
      subst empty
      cases hx

/-- What layers further out name stays stored: it is not in the layer that is forgotten. -/
theorem Keeps.closeScope {t : Table} {ls : Layers} (h : t.Keeps ls) {l : Nat} (pos : 1 ≤ l)
    (le : l ≤ ls.top) : (t.closeScope l).2.Keeps (ls.below l) := by
  have closed : (t.closeScope l).2
      = { t with entries := t.entries.filter (·.2.layer != l), scopes := t.scopes.take l } := by
    have inside : ¬ (l = 0 ∨ t.layer < l) := by rw [h.layer]; omega
    simp [Table.closeScope, inside]
  rw [closed]
  refine ⟨fun e he => h.fresh e (List.mem_of_mem_filter he), h.next, ?_, List.forall₂_take l h.maps, ?_⟩
  · rw [ne_eq, List.take_eq_nil_iff, not_or]
    exact ⟨by omega, h.nonempty⟩
  · intro k scope hs x hx
    rw [List.getElem?_take] at hs
    split at hs
    case isFalse => cases hs
    case isTrue lt =>
      obtain ⟨s, get, name, layer⟩ := h.stored k scope hs x hx
      refine ⟨s, lookup_filter get ?_, name, layer⟩
      simp
      omega

theorem Keeps.closeScope_eq {t : Table} {ls : Layers} (h : t.Keeps ls) {l : Nat}
    (outside : ¬ (1 ≤ l ∧ l ≤ ls.top)) : t.closeScope l = (0, t) := by
  have : l = 0 ∨ t.layer < l := by rw [h.layer]; omega
  simp [Table.closeScope, this]

/-! ### Declarations -/

theorem Keeps.collides_iff {t : Table} {ls : Layers} (h : t.Keeps ls) (s : Symbol) :
    t.collides s (min s.layer t.layer) ↔ ls.Taken s := by
  have any : t.scopes.any (fun scope => (scope.lookup s.name).isSome) ↔ ∃ l id, ls.Has l s.name id := by
    simp only [List.any_eq_true, Option.isSome_iff_exists, h.has_iff]
    constructor
    · rintro ⟨scope, mem, id, found⟩
      obtain ⟨l, hl⟩ := List.getElem?_of_mem mem
      exact ⟨l, id, scope, hl, found⟩
    · rintro ⟨l, id, scope, hl, found⟩
      exact ⟨scope, List.mem_of_getElem? hl, id, found⟩
  have own : t.declares (min s.layer t.layer) s.name ↔ ∃ id, ls.Has (min s.layer ls.top) s.name id := by
    simp only [Table.declares, Option.isSome_iff_exists, Option.bind_eq_some_iff, h.has_iff, h.layer]
  rw [Table.collides, Layers.Taken, Symbol.function?]
  cases s.meaning with
  | value => simpa using own
  | literal => simpa using own
  | function info => simpa using any

/-- A name that is bound to a stored symbol of its own layer. -/
theorem Keeps.bindName {t : Table} {ls : Layers} (h : t.Keeps ls) {id : Nat} {s : Symbol}
    (get : t.get? id = some s) :
    (t.bindName s.layer s.name id).Keeps
      { ls with maps := ls.maps.modify s.layer (·.insert s.name id) } := by
  refine ⟨h.fresh, h.next, by simpa [Table.bindName] using h.nonempty, ?_, ?_⟩
  · refine List.forall₂_iff_get.2 ⟨by simp [Table.bindName, h.maps.length_eq], ?_⟩
    intro i hi hi'
    simp only [Table.bindName, List.length_modify] at hi hi'
    have same : Same t.scopes[i] ls.maps[i] := h.maps.get hi hi'
    simp only [Table.bindName, List.get_eq_getElem, List.getElem_modify]
    split
    · exact same.cons s.name id
    · exact same
  · intro l scope hs x hx
    simp only [Table.bindName, List.getElem?_modify, Option.map_eq_map, Option.map_eq_some_iff] at hs
    obtain ⟨old, hold, rfl⟩ := hs
    split at hx
    case isFalse => exact h.stored l old hold x hx
    case isTrue eq =>
      rcases List.mem_cons.1 hx with rfl | hx
      · exact ⟨s, get, rfl, eq⟩
      · exact h.stored l old hold x hx

theorem Keeps.bindFunction {t : Table} {ls : Layers} (h : t.Keeps ls) (index id : Nat) :
    (t.bindFunction index id).Keeps ls :=
  ⟨h.fresh, h.next, h.nonempty, h.maps, h.stored⟩

theorem Keeps.declare_eq_error {t : Table} {ls : Layers} (h : t.Keeps ls) {s : Symbol}
    (taken : ls.Taken s) : t.declare s = .error (.duplicateDeclaration s.name) := by
  rw [Table.declare, if_pos ((h.collides_iff s).2 taken)]

theorem Keeps.declare_eq_ok {t : Table} {ls : Layers} (h : t.Keeps ls) {s : Symbol}
    (free : ¬ ls.Taken s) : ∃ t', t.declare s = .ok (ls.nextId, t') ∧ t'.Keeps (ls.after (.declare s)) := by
  have fine : ¬ t.collides s (min s.layer t.layer) := fun bad => free ((h.collides_iff s).1 bad)
  have inserted := h.insert { s with layer := min s.layer t.layer }
  have named := inserted.bindName (get?_insert_self h.fresh _)
  rw [Table.declare, if_neg fine, h.next, Layers.after, if_neg free, ← h.layer]
  refine ⟨_, rfl, ?_⟩
  rw [h.next] at named
  split
  · exact named.bindFunction _ _
  · exact named

theorem Keeps.declare {t : Table} {ls : Layers} (h : t.Keeps ls) (s : Symbol) :
    (t.after (.declare s)).Keeps (ls.after (.declare s)) := by
  by_cases taken : ls.Taken s
  · have failed : (Change.declare s).result t = .error (.duplicateDeclaration s.name) := by
      rw [Change.result, h.declare_eq_error taken]
      rfl
    rw [after_eq_self failed, Layers.after, if_pos taken]
    exact h
  · obtain ⟨t', eq, keeps⟩ := h.declare_eq_ok taken
    have done : (Change.declare s).result t = .ok t' := by
      rw [Change.result, eq]
      rfl
    rwa [after_eq done]

/-! ### Sequences of changes -/

theorem Keeps.after {t : Table} {ls : Layers} (h : t.Keeps ls) (c : Change) :
    (t.after c).Keeps (ls.after c) := by
  cases c with
  | openScope => exact h.openScope
  | declare s => exact h.declare s
  | closeScope l =>
    by_cases inside : 1 ≤ l ∧ l ≤ ls.top
    · rw [Layers.after, if_pos inside]
      exact h.closeScope inside.1 inside.2
    · rw [Layers.after, if_neg inside]
      have same : t.after (.closeScope l) = t := congrArg Prod.snd (h.closeScope_eq inside)
      rwa [same]
  | _ => exact h.nameless rfl

theorem Keeps.foldl {t : Table} {ls : Layers} (h : t.Keeps ls) (cs : List Change) :
    (cs.foldl Table.after t).Keeps (cs.foldl Layers.after ls) := by
  induction cs generalizing t ls with
  | nil => exact h
  | cons c cs ih => exact ih (h.after c)

theorem keeps_initial : initial.Keeps Layers.initial := by
  have scopes : initial.scopes = [(LibraryFn.all.map (·.name) ++ [entryName]).zipIdx.reverse ++ []] := rfl
  have stored : ∀ x ∈ (LibraryFn.all.map (·.name) ++ [entryName]).zipIdx.reverse ++ [],
      (initial.get? x.2).map (fun s => (s.name, s.layer)) = some (x.1, 0) := by decide
  refine ⟨by decide, rfl, by simp [scopes], ?_, ?_⟩
  · rw [scopes]
    exact .cons (same_empty.foldl _) .nil
  · intro l scope hs x hx
    rw [scopes, List.getElem?_singleton] at hs
    split at hs
    case isFalse => cases hs
    case isTrue zero =>
      cases hs
      obtain ⟨s, get, eq⟩ := Option.map_eq_some_iff.1 (stored x hx)
      obtain ⟨name, layer⟩ := Prod.mk.inj eq
      exact ⟨s, get, name, layer.trans zero.symm⟩

theorem Keeps.refines {t : Table} {ls : Layers} (h : t.Keeps ls) : t.Refines ls where
  layer := h.layer
  lookup := h.answers
  stored _ _ _ has := h.exists_of_has has
  duplicate s := by
    constructor
    · intro failed
      by_contra free
      obtain ⟨t', eq, -⟩ := h.declare_eq_ok free
      rw [eq] at failed
      cases failed
    · exact h.declare_eq_error
  declared s free := by
    obtain ⟨t', eq, -⟩ := h.declare_eq_ok free
    exact ⟨t', eq⟩
  unchanged s taken := by
    refine after_eq_self (e := .duplicateDeclaration s.name) ?_
    rw [Change.result, h.declare_eq_error taken]
    rfl
  closed l pos le name := (h.closeScope pos le).answers name
  notClosed l outside := h.closeScope_eq outside
  nameless c nameless name := lookup_after nameless t name

/-- After every sequence of changes a fresh table answers as the stack of finite maps does after the same
changes. -/
theorem refines_after (cs : List Change) :
    (cs.foldl Table.after initial).Refines (cs.foldl Layers.after .initial) :=
  (keeps_initial.foldl cs).refines

end Table

end CZero
