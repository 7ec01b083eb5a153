import CZero.Proofs.Renaming.Basic
import CZero.Proofs.Symbol.View

/-!
# Symbol tables that are alike

Two tables are alike if they have the same symbols under the same numbers, but other names for them. Then
they answer alike: names are only ever compared with each other, and different names stay different. One
lemma for each operation.
-/

namespace CZero.Likeness

variable (κ : Likeness)

/-- The functions have the same code and take the same places. -/
structure Infos (f f' : FnInfo) : Prop where
  index : f'.index = f.index
  ret : f'.ret = f.ret
  types : f'.params.map (·.2) = f.params.map (·.2)
  locals : f'.locals.length = f.locals.length
  body : f'.body = f.body

/-- Symbols that are alike stand for the same. -/
inductive Meanings : Meaning → Meaning → Prop
  | value : Meanings .value .value
  | function {f f'} : Infos f f' → Meanings (.function f) (.function f')
  | literal : Meanings .literal .literal

/-- The symbols are alike. A string literal has a text instead of a name. -/
structure Symbols (s s' : Symbol) : Prop where
  name : s'.name = if s.meaning = .literal then s.name else κ.name s.name
  meaning : Meanings s.meaning s'.meaning
  ty : s'.ty = s.ty
  layer : s'.layer = s.layer
  isConst : s'.isConst = s.isConst
  isInit : s'.isInit = s.isInit
  slot : s'.slot = s.slot

/-- A scope with the names of the second source. -/
def scope (names : Scope) : Scope :=
  names.map fun x => (κ.name x.1, x.2)

/-- The tables are alike. -/
structure Tables (t t' : Table) : Prop where
  entries : List.Forall₂ (fun e e' => e'.1 = e.1 ∧ κ.Symbols e.2 e'.2) t.entries t'.entries
  scopes : t'.scopes = t.scopes.map κ.scope
  functions : t'.functions = t.functions
  nextId : t'.nextId = t.nextId

/-- Both fail, or both succeed. -/
inductive Replies {α β : Type} (C : Cause → Cause → Prop) (R : α → β → Prop) :
    Except Cause α → Except Cause β → Prop
  | ok {a b} : R a b → Replies C R (.ok a) (.ok b)
  | error {c c'} : C c c' → Replies C R (.error c) (.error c')

/-- The same fault of the compiler. -/
def Same (c c' : Cause) : Prop :=
  c' = c ∧ c.IsInternal

variable {κ} {t t' : Table} {s s' : Symbol} {x : String}

theorem Replies.bind {α β γ δ : Type} {C : Cause → Cause → Prop} {R : α → β → Prop} {Q : γ → δ → Prop}
    {a : Except Cause α} {b : Except Cause β} {g : α → Except Cause γ} {g' : β → Except Cause δ}
    (h : Replies C R a b) (next : ∀ a b, R a b → Replies C Q (g a) (g' b)) :
    Replies C Q (a >>= g) (b >>= g') := by
  cases h with
  | ok r => exact next _ _ r
  | error c => exact .error c

/-! ### Symbols -/

theorem Symbols.function? (h : κ.Symbols s s') : Option.Rel Infos s.function? s'.function? := by
  have meaning := h.meaning
  rw [Symbol.function?, Symbol.function?]
  cases eq : s.meaning <;> cases eq' : s'.meaning <;> rw [eq, eq'] at meaning
  case function.function =>
    cases meaning with
    | function f => exact .some f
  all_goals first | exact .none | cases meaning

theorem Symbols.isIntVariable (h : κ.Symbols s s') : s'.isIntVariable = s.isIntVariable := by
  have meaning := h.meaning
  rw [Symbol.isIntVariable, Symbol.isIntVariable, h.ty]
  cases eq : s.meaning <;> cases eq' : s'.meaning <;> rw [eq, eq'] at meaning
  case function.function => rfl
  all_goals first | rfl | cases meaning

theorem Symbols.isGlobal (h : κ.Symbols s s') : s'.isGlobal = s.isGlobal := by
  have isSome := Table.rel_isSome h.function?
  rw [Symbol.isGlobal, Symbol.isGlobal, h.layer, ← Option.not_isSome, ← Option.not_isSome, isSome]

theorem Symbols.globalOf (h : κ.Symbols s s') : Analysis.globalOf s' = Analysis.globalOf s := by
  have meaning := h.meaning
  have name := h.name
  rw [Analysis.globalOf, Analysis.globalOf, h.isConst]
  cases eq : s.meaning <;> cases eq' : s'.meaning <;> rw [eq, eq'] at meaning
  case literal.literal =>
    rw [eq, if_pos rfl] at name
    rw [name]
  all_goals first | rfl | cases meaning

theorem Symbols.mapFunction (h : κ.Symbols s s') {g g' : FnInfo → FnInfo}
    (alike : ∀ f f', Infos f f' → Infos (g f) (g' f')) : κ.Symbols (s.mapFunction g) (s'.mapFunction g') := by
  obtain ⟨x, meaning, ty, layer, isConst, isInit, slot⟩ := s
  obtain ⟨x', meaning', ty', layer', isConst', isInit', slot'⟩ := s'
  obtain ⟨name, meaning, ty, layer, isConst, isInit, slot⟩ := h
  cases meaning with
  | value => exact ⟨name, .value, ty, layer, isConst, isInit, slot⟩
  | literal => exact ⟨name, .literal, ty, layer, isConst, isInit, slot⟩
  | function f =>
    refine ⟨?_, .function (alike _ _ f), ty, layer, isConst, isInit, slot⟩
    simpa [Symbol.mapFunction] using name

/-! ### Names -/

theorem lookup_scope (names : Scope) (x : String) : (κ.scope names).lookup (κ.name x) = names.lookup x := by
  induction names with
  | nil => rfl
  | cons y rest ih =>
    rw [scope, List.map_cons, List.lookup_cons, List.lookup_cons]
    by_cases eq : x = y.1
    · rw [eq, beq_self_eq_true, beq_self_eq_true]
    · rw [beq_eq_false_iff_ne.2 eq, beq_eq_false_iff_ne.2 (mt (fun h => κ.injective h) eq)]
      exact ih

theorem Tables.layer (h : κ.Tables t t') : t'.layer = t.layer := by
  rw [Table.layer, Table.layer, h.scopes, List.length_map]

theorem Tables.declares (h : κ.Tables t t') (l : Nat) : t'.declares l (κ.name x) = t.declares l x := by
  rw [Table.declares, Table.declares, h.scopes, List.getElem?_map]
  cases t.scopes[l]? with
  | none => rfl
  | some names => exact congrArg Option.isSome (lookup_scope names x)

theorem Tables.collides (h : κ.Tables t t') (hs : κ.Symbols s s') (named : s.meaning ≠ .literal) (l : Nat) :
    t'.collides s' l = t.collides s l := by
  have name : s'.name = κ.name s.name := hs.name.trans (if_neg named)
  have meaning := hs.meaning
  have any : (t.scopes.map κ.scope).any (fun scope => (scope.lookup (κ.name s.name)).isSome) =
      t.scopes.any fun scope => (scope.lookup s.name).isSome := by
    rw [List.any_map]
    simp only [Function.comp_def, lookup_scope]
  rw [Table.collides, Table.collides, name]
  cases eq : s.meaning <;> cases eq' : s'.meaning <;> rw [eq, eq'] at meaning
  case value.value => exact h.declares l
  case function.function => rw [h.scopes]; exact any
  case literal.literal => exact absurd eq named
  all_goals cases meaning

theorem Tables.lookup (h : κ.Tables t t') (x : String) :
    Replies (Cause.Renamed κ.name) (fun id id' => id' = id) (t.lookup x) (t'.lookup (κ.name x)) := by
  have found : (t.scopes.map κ.scope).reverse.findSome? (·.lookup (κ.name x)) =
      t.scopes.reverse.findSome? (·.lookup x) := by
    rw [← List.map_reverse, List.findSome?_map]
    simp only [Function.comp_def, lookup_scope]
  rw [Table.lookup, Table.lookup, h.scopes, found]
  cases t.scopes.reverse.findSome? (·.lookup x) with
  | none => exact .error (.notDeclared x)
  | some id => exact .ok rfl

/-! ### Symbols by number -/

theorem Tables.get? (h : κ.Tables t t') (id : Nat) : Option.Rel κ.Symbols (t.get? id) (t'.get? id) := by
  have entries := h.entries
  rw [Table.get?, Table.get?]
  generalize t.entries = l at entries ⊢
  generalize t'.entries = l' at entries ⊢
  induction entries with
  | nil => exact .none
  | @cons e e' _ _ both _ ih =>
    rw [List.lookup_cons, List.lookup_cons, both.1]
    split
    · exact .some both.2
    · exact ih

theorem Tables.insert (h : κ.Tables t t') (hs : κ.Symbols s s') : κ.Tables (t.insert s) (t'.insert s') where
  entries := List.rel_append h.entries (.cons ⟨h.nextId, hs⟩ .nil)
  scopes := h.scopes
  functions := h.functions
  nextId := congrArg (· + 1) h.nextId

theorem Tables.modify (h : κ.Tables t t') (id : Nat) {g g' : Symbol → Symbol}
    (alike : ∀ s s', κ.Symbols s s' → κ.Symbols (g s) (g' s')) :
    κ.Tables (t.modify id g) (t'.modify id g') where
  entries := by
    rw [Table.modify, Table.modify, List.forall₂_map_left_iff, List.forall₂_map_right_iff]
    refine h.entries.imp fun e e' both => ?_
    obtain ⟨number, symbols⟩ := both
    refine ⟨number, ?_⟩
    dsimp only
    rw [number]
    split
    · exact alike _ _ symbols
    · exact symbols
  scopes := h.scopes
  functions := h.functions
  nextId := h.nextId

theorem Tables.markInit (h : κ.Tables t t') (id : Nat) : κ.Tables (t.markInit id) (t'.markInit id) :=
  h.modify id fun _ _ s => { s with isInit := rfl }

theorem Tables.globals (h : κ.Tables t t') : List.Forall₂ κ.Symbols t.globals t'.globals := by
  have entries := h.entries
  rw [Table.globals, Table.globals]
  generalize t.entries = l at entries ⊢
  generalize t'.entries = l' at entries ⊢
  induction entries with
  | nil => exact .nil
  | cons both _ ih =>
    rw [List.map_cons, List.map_cons, List.filter_cons, List.filter_cons, both.2.isGlobal]
    split
    · exact .cons both.2 ih
    · exact ih

theorem Tables.globalCount (h : κ.Tables t t') : t'.globalCount = t.globalCount :=
  h.globals.length_eq.symm

/-! ### Declaring -/

theorem Tables.bindName (h : κ.Tables t t') (l : Nat) (x : String) (id : Nat) :
    κ.Tables (t.bindName l x id) (t'.bindName l (κ.name x) id) where
  entries := h.entries
  scopes := by
    rw [Table.bindName, Table.bindName, h.scopes]
    refine List.ext_getElem? fun i => ?_
    simp only [List.getElem?_modify, List.getElem?_map]
    cases t.scopes[i]? with
    | none => rfl
    | some names => by_cases eq : l = i <;> simp [eq, scope]
  functions := h.functions
  nextId := h.nextId

theorem Tables.bindFunction (h : κ.Tables t t') (index id : Nat) :
    κ.Tables (t.bindFunction index id) (t'.bindFunction index id) where
  entries := h.entries
  scopes := h.scopes
  functions := by rw [Table.bindFunction, Table.bindFunction, h.functions]
  nextId := h.nextId

theorem Tables.declare (h : κ.Tables t t') (hs : κ.Symbols s s') (named : s.meaning ≠ .literal) :
    Replies (Cause.Renamed κ.name) (fun x x' => x'.1 = x.1 ∧ κ.Tables x.2 x'.2) (t.declare s) (t'.declare s') := by
  have name : s'.name = κ.name s.name := hs.name.trans (if_neg named)
  have placed : κ.Symbols { s with layer := min s.layer t.layer } { s' with layer := min s.layer t.layer } :=
    { hs with layer := rfl }
  have inserted := (h.insert placed).bindName (min s.layer t.layer) s.name t.nextId
  rw [Table.declare, Table.declare, hs.layer, h.layer, h.collides hs named, h.nextId]
  obtain ⟨x, meaning, ty, layer, isConst, isInit, slot⟩ := s
  obtain ⟨x', meaning', ty', layer', isConst', isInit', slot'⟩ := s'
  obtain rfl : x' = κ.name x := name
  split
  · exact .error (.duplicateDeclaration x)
  · refine .ok ⟨rfl, ?_⟩
    cases hs.meaning with
    | value => exact inserted
    | literal => exact absurd rfl named
    | function f =>
      dsimp only
      rw [f.index]
      exact inserted.bindFunction _ _

theorem Tables.declareLiteral (h : κ.Tables t t') (text : String) :
    (t'.declareLiteral text).1 = (t.declareLiteral text).1 ∧
      κ.Tables (t.declareLiteral text).2 (t'.declareLiteral text).2 := by
  refine ⟨h.globalCount, h.insert ?_⟩
  rw [h.globalCount]
  exact ⟨rfl, .literal, rfl, rfl, rfl, rfl, rfl⟩

/-! ### Scopes -/

theorem Tables.openScope (h : κ.Tables t t') : κ.Tables t.openScope t'.openScope :=
  { h with scopes := by simp [Table.openScope, h.scopes, scope] }

theorem Tables.closeScope (h : κ.Tables t t') (l : Nat) : κ.Tables (t.closeScope l).2 (t'.closeScope l).2 := by
  rw [Table.closeScope, Table.closeScope, h.layer]
  split
  · exact h
  · refine ⟨?_, by simp [h.scopes, List.map_take], h.functions, h.nextId⟩
    have entries := h.entries
    dsimp only
    generalize t.entries = k at entries ⊢
    generalize t'.entries = k' at entries ⊢
    induction entries with
    | nil => exact .nil
    | cons both _ ih =>
      rw [List.filter_cons, List.filter_cons, both.2.layer]
      split
      · exact .cons both ih
      · exact ih

/-! ### Functions -/

theorem Tables.function (h : κ.Tables t t') (k : Nat) : Replies Same Infos (t.function k) (t'.function k) := by
  have found : Option.Rel Infos (t.functions[k]?.bind fun id => (t.get? id).bind Symbol.function?)
      (t'.functions[k]?.bind fun id => (t'.get? id).bind Symbol.function?) := by
    rw [h.functions]
    cases t.functions[k]? with
    | none => exact .none
    | some id =>
      have symbols := h.get? id
      simp only [Option.bind_some]
      cases eq : t.get? id <;> cases eq' : t'.get? id <;> rw [eq, eq'] at symbols
      case none.none => exact .none
      case some.some =>
        cases symbols with
        | some s => exact s.function?
      all_goals cases symbols
  rw [Table.function, Table.function]
  revert found
  generalize t.functions[k]?.bind _ = o
  generalize t'.functions[k]?.bind _ = o'
  rintro (f | _)
  · exact .ok f
  · exact .error ⟨rfl, .inr ⟨k, rfl⟩⟩

theorem Tables.modifyFunction (h : κ.Tables t t') (k : Nat) {g g' : FnInfo → FnInfo}
    (alike : ∀ f f', Infos f f' → Infos (g f) (g' f')) :
    Replies Same κ.Tables (t.modifyFunction k g) (t'.modifyFunction k g') := by
  rw [Table.modifyFunction, Table.modifyFunction]
  refine (h.function k).bind fun _ _ _ => ?_
  rw [h.functions]
  cases t.functions[k]? with
  | none => exact .error ⟨rfl, .inr ⟨k, rfl⟩⟩
  | some id => exact .ok (h.modify id fun _ _ s => s.mapFunction alike)

theorem Tables.addLocal (h : κ.Tables t t') (k : Nat) (x x' : String) :
    Replies Same (fun a b => b.1 = a.1 ∧ κ.Tables a.2 b.2) (t.addLocal k x) (t'.addLocal k x') := by
  rw [Table.addLocal, Table.addLocal]
  refine (h.function k).bind fun f f' hf => (h.modifyFunction k ?_).bind fun _ _ ht => .ok ⟨hf.locals, ht⟩
  intro f f' hf
  exact { hf with locals := by simp [FnInfo.addLocal, hf.locals] }

theorem Tables.append (h : κ.Tables t t') (k : Nat) (i : Instr) :
    Replies Same (fun a b => b.1 = a.1 ∧ κ.Tables a.2 b.2) (t.append k i) (t'.append k i) := by
  rw [Table.append, Table.append]
  refine (h.function k).bind fun f f' hf => (h.modifyFunction k ?_).bind fun _ _ ht =>
    .ok ⟨congrArg List.length hf.body, ht⟩
  intro f f' hf
  exact { hf with body := by rw [FnInfo.append, FnInfo.append, hf.body] }

theorem Tables.placeholder (h : κ.Tables t t') (k : Nat) (op : Opcode) :
    Replies Same (fun a b => b.1 = a.1 ∧ κ.Tables a.2 b.2) (t.placeholder k op) (t'.placeholder k op) := by
  rw [Table.placeholder, Table.placeholder]
  refine (h.append k (.plain op)).bind ?_
  rintro ⟨n, t⟩ ⟨n', t'⟩ ⟨rfl, ht⟩
  exact .ok ⟨rfl, ht⟩

theorem Tables.patch (h : κ.Tables t t') (site : Site) (operand : Int64) :
    Replies Same κ.Tables (t.patch site operand) (t'.patch site operand) := by
  rw [Table.patch, Table.patch]
  refine (h.function _).bind fun f f' hf => ?_
  rw [hf.body]
  split
  · refine h.modifyFunction _ fun f f' hf => ?_
    exact { hf with body := by rw [FnInfo.setOperand, FnInfo.setOperand, hf.body] }
  · exact .error ⟨rfl, .inl ⟨_, rfl⟩⟩

theorem Tables.instrCount (h : κ.Tables t t') (k : Nat) :
    Replies Same (fun n n' => n' = n) (t.instrCount k) (t'.instrCount k) := by
  rw [Table.instrCount, Table.instrCount]
  exact (h.function k).bind fun f f' hf => .ok (congrArg List.length hf.body)

theorem Tables.lastOpcode? (h : κ.Tables t t') (k : Nat) :
    Replies Same (fun op op' => op' = op) (t.lastOpcode? k) (t'.lastOpcode? k) := by
  rw [Table.lastOpcode?, Table.lastOpcode?]
  exact (h.function k).bind fun f f' hf => .ok (by rw [hf.body])

theorem Tables.functionCount (h : κ.Tables t t') : t'.functionCount = t.functionCount :=
  congrArg List.length h.functions

/-! ### The table before a program -/

theorem Infos.refl (f : FnInfo) : Infos f f :=
  ⟨rfl, rfl, rfl, rfl, rfl⟩

/-- All that is declared before a program has a reserved name. -/
theorem tables_initial : κ.Tables .initial .initial := by
  have names : ∀ scope ∈ Table.initial.scopes, ∀ x ∈ scope, x.1 ∈ reservedNames := by decide
  have symbols : ∀ e ∈ Table.initial.entries,
      e.2.name ∈ reservedNames ∧ ∃ f, e.2.meaning = .function f := by
    have check : ∀ e ∈ Table.initial.entries, e.2.name ∈ reservedNames ∧ e.2.function?.isSome := by decide
    intro e he
    obtain ⟨name, function⟩ := check e he
    refine ⟨name, ?_⟩
    rw [Symbol.function?] at function
    split at function
    · exact ⟨_, by assumption⟩
    · cases function
  refine ⟨List.forall₂_same.2 fun e he => ⟨rfl, ?_⟩, ?_, rfl, rfl⟩
  · obtain ⟨name, f, meaning⟩ := symbols e he
    refine ⟨?_, ?_, rfl, rfl, rfl, rfl, rfl⟩
    · rw [meaning, if_neg Meaning.noConfusion, κ.reserved _ name]
    · rw [meaning]
      exact .function (.refl f)
  · have same : ∀ scope ∈ Table.initial.scopes, κ.scope scope = scope := by
      intro scope hs
      refine (List.map_congr_left fun x hx => ?_).trans (List.map_id scope)
      rw [κ.reserved _ (names scope hs x hx)]
      rfl
    exact ((List.map_congr_left same).trans (List.map_id _)).symm

end CZero.Likeness
