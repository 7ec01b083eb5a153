import CZero.Proofs.Lowering.Faults
import CZero.Proofs.OnePass.Routines
import CZero.Proofs.Symbol.Layers

/-!
# Faults for which no source is to blame

Lowering appends to the function it is in. If there were no such function, this would be a fault for which no
source is to blame, and so would be a jump that is not there to be patched. A step is `Clerical` if it has no
other faults.

The first of them does not occur: all function numbers stand for functions, and the number of the current
function is one of them (`Context.IsStaffed`). Every step keeps this up (`Lower.KeepsStaff`).
-/

namespace CZero

/-! ### Steps without faults of a source -/

/-- A computation on a table fails only for reasons that do not lie in the source. -/
def Table.Clerical {α : Type} (x : Except Cause α) : Prop :=
  ∀ cause, x = .error cause → cause.IsInternal

namespace Table

variable {α β : Type}

theorem clerical_ok (a : α) : Clerical (.ok a) :=
  nofun

theorem Clerical.bind {x : Except Cause α} {g : α → Except Cause β} (hx : Clerical x) (hg : ∀ a, Clerical (g a)) :
    Clerical (x >>= g) := by
  cases x with
  | ok a => exact hg a
  | error cause =>
    rintro _ ⟨⟩
    exact hx cause rfl

theorem clerical_noFunction (index : Nat) : Clerical (.error (noFunction index) : Except Cause α) := by
  rintro _ ⟨⟩
  exact .inr ⟨index, rfl⟩

theorem clerical_function (t : Table) (index : Nat) : Clerical (t.function index) := by
  unfold function
  split
  · exact clerical_ok _
  · exact clerical_noFunction index

theorem clerical_modifyFunction (t : Table) (index : Nat) (f : FnInfo → FnInfo) :
    Clerical (t.modifyFunction index f) := by
  refine (clerical_function t index).bind fun _ => ?_
  split
  · exact clerical_ok _
  · exact clerical_noFunction index

theorem clerical_append (t : Table) (index : Nat) (i : Instr) : Clerical (t.append index i) :=
  (clerical_function t index).bind fun _ => (clerical_modifyFunction t index _).bind fun _ => clerical_ok _

theorem clerical_placeholder (t : Table) (index : Nat) (op : Opcode) : Clerical (t.placeholder index op) :=
  (clerical_append t index _).bind fun _ => clerical_ok _

theorem clerical_instrCount (t : Table) (index : Nat) : Clerical (t.instrCount index) :=
  (clerical_function t index).bind fun _ => clerical_ok _

theorem clerical_patch (t : Table) (site : Site) (operand : Int64) : Clerical (t.patch site operand) := by
  refine (clerical_function t site.function).bind fun info => ?_
  split
  · exact clerical_modifyFunction t _ _
  · rintro _ ⟨⟩
    exact .inl ⟨_, rfl⟩

end Table

namespace Lower

variable {α β : Type}

/-- A step fails only for reasons that do not lie in the source. -/
def Clerical (x : Lower α) : Prop :=
  ∀ c d, x c = .error d → d.cause.IsInternal

theorem clerical_pure (a : α) : Clerical (pure a) :=
  nofun

theorem Clerical.bind {x : Lower α} {g : α → Lower β} (hx : x.Clerical) (hg : ∀ a, (g a).Clerical) :
    (x >>= g).Clerical := by
  intro c d fault
  rw [bind_apply] at fault
  split at fault
  · exact hg _ _ _ fault
  · next eq =>
    cases fault
    exact hx _ _ eq

theorem clerical_update {position : Position} {f : Table → Except Cause (α × Table)}
    (h : ∀ t, Table.Clerical (f t)) : (update position f).Clerical := by
  intro c d fault
  rw [update_apply] at fault
  split at fault
  · cases fault
  · next eq =>
    cases fault
    exact h _ _ eq

theorem clerical_get : Clerical (get : Lower Context) :=
  nofun

theorem clerical_edit {f : Table → Nat → Except Cause (α × Table)} (h : ∀ t i, Table.Clerical (f t i)) :
    (edit f).Clerical :=
  clerical_get.bind fun c => clerical_update (h · c.current)

theorem clerical_emitWith (op : Opcode) (operand : Int64) : (emitWith op operand).Clerical :=
  (clerical_edit fun t i => t.clerical_append i _).bind fun _ => clerical_pure _

theorem clerical_placeholder (op : Opcode) : (placeholder op).Clerical :=
  clerical_edit fun t i => t.clerical_placeholder i op

theorem clerical_here : here.Clerical :=
  clerical_get.bind fun c =>
    clerical_update fun t => (t.clerical_instrCount c.current).bind fun _ => Table.clerical_ok _

theorem clerical_patchJump (site : Site) (target : Nat) : (patchJump site target).Clerical := by
  unfold patchJump patch
  exact clerical_update fun t => (t.clerical_patch site _).bind fun _ => Table.clerical_ok _

end Lower

/-! ### Tables with all their functions -/

/-- Every function number stands for a function, and numbers of symbols are below the next one. -/
structure Table.IsStaffed (t : Table) : Prop where
  fresh : ∀ e ∈ t.entries, e.1 < t.nextId
  functions : ∀ id ∈ t.functions, ∃ s, t.get? id = some s ∧ s.function?.isSome ∧ s.layer = 0

namespace Table

variable {t t' : Table}

/-- There is a function for each number in use. -/
theorem IsStaffed.function (h : t.IsStaffed) {k : Nat} (lt : k < t.functions.length) :
    ∃ info, t.function k = .ok info := by
  obtain ⟨s, get, isSome, -⟩ := h.functions _ (List.getElem_mem lt)
  obtain ⟨info, found⟩ := Option.isSome_iff_exists.1 isSome
  refine ⟨info, ?_⟩
  rw [Table.function, List.getElem?_eq_getElem lt, Option.bind_some, get, Option.bind_some, found]

/-- An instruction can be appended. -/
theorem IsStaffed.append (h : t.IsStaffed) {k : Nat} (lt : k < t.functions.length) (i : Instr) :
    ∃ result, t.append k i = .ok result := by
  obtain ⟨info, found⟩ := h.function lt
  rw [Table.append, found, modifyFunction, found, List.getElem?_eq_getElem lt]
  exact ⟨_, rfl⟩

/-- A change keeps the functions of a table, and their numbers. -/
def Retains (t t' : Table) : Prop :=
  t.IsStaffed → t'.IsStaffed ∧ t.functions.length ≤ t'.functions.length

theorem Retains.refl (t : Table) : t.Retains t :=
  fun h => ⟨h, Nat.le_refl _⟩

theorem retains_modify (t : Table) (id : Nat) {f : Symbol → Symbol}
    (function : ∀ s, (f s).function?.isSome = s.function?.isSome)
    (layer : ∀ s, (f s).layer = s.layer) : t.Retains (t.modify id f) := by
  refine fun h => ⟨⟨?_, ?_⟩, Nat.le_refl _⟩
  · intro e mem
    obtain ⟨e', mem', rfl⟩ := List.mem_map.1 mem
    exact h.fresh e' mem'
  · intro i mem
    obtain ⟨s, get, isSome, global⟩ := h.functions i mem
    refine ⟨_, by rw [get?_modify, get, Option.map_some], ?_⟩
    split
    · exact ⟨(function s).trans isSome, (layer s).trans global⟩
    · exact ⟨isSome, global⟩

theorem retains_modifyFunction {k : Nat} {g : FnInfo → FnInfo} (h : t.modifyFunction k g = .ok t') :
    t.Retains t' := by
  obtain ⟨id, f, -, -, rfl⟩ := modifyFunction_eq_ok h
  refine retains_modify t id (fun s => ?_) fun s => ?_
  · rw [Symbol.function?_mapFunction, Option.isSome_map]
  · unfold Symbol.mapFunction
    split <;> rfl

/-- An edit of a function whose result says something about the function before. -/
theorem retains_edit {k n : Nat} {g : FnInfo → FnInfo} {b : FnInfo → Nat}
    (h : (do let info ← t.function k; return (b info, ← t.modifyFunction k g)) = Except.ok (n, t')) : t.Retains t' :=
  retains_modifyFunction (snd_of_bind (congrArg (Except.map Prod.snd) h))

theorem retains_placeholder {k : Nat} {op : Opcode} {site : Site} (h : t.placeholder k op = .ok (site, t')) :
    t.Retains t' := by
  rw [placeholder] at h
  cases appended : t.append k (.plain op) with
  | error cause =>
    rw [appended] at h
    cases h
  | ok result =>
    rw [appended] at h
    cases h
    exact retains_edit appended

theorem IsStaffed.insert (h : t.IsStaffed) (s : Symbol) : (t.insert s).IsStaffed := by
  refine ⟨fun e mem => ?_, fun id mem => ?_⟩
  · obtain mem | mem := List.mem_append.1 mem
    · exact Nat.lt_succ_of_lt (h.fresh e mem)
    · rw [List.mem_singleton.1 mem]
      exact Nat.lt_succ_self _
  · obtain ⟨s', get, isFn⟩ := h.functions id mem
    exact ⟨s', get?_insert s get, isFn⟩

/-- A new symbol is declared. The name of a function is global. -/
theorem retains_declare {s : Symbol} {id : Nat} (h : t.declare s = .ok (id, t'))
    (layer : ∀ info, s.meaning = .function info → s.layer = 0) : t.Retains t' := by
  intro staffed
  rw [declare] at h
  dsimp only at h
  split at h
  · cases h
  cases h
  have inserted := staffed.insert { s with layer := min s.layer t.layer }
  split
  · next info meaning =>
    have global : min s.layer t.layer = 0 := by rw [layer info meaning, Nat.zero_min]
    have new : ∃ s', (t.insert { s with layer := min s.layer t.layer }).get? t.nextId = some s' ∧
        s'.function?.isSome ∧ s'.layer = 0 := by
      refine ⟨_, get?_insert_self staffed.fresh _, ?_, global⟩
      rw [Symbol.function?]
      simp only [meaning]
      rfl
    refine ⟨⟨inserted.fresh, fun i mem => ?_⟩, ?_⟩
    · obtain mem | rfl := List.mem_or_eq_of_mem_set mem
      · obtain mem | mem := List.mem_append.1 mem
        · exact inserted.functions i mem
        · rw [List.eq_of_mem_replicate mem]
          exact new
      · exact new
    · change t.functions.length ≤ ((t.functions ++ List.replicate _ _).set _ _).length
      rw [List.length_set, List.length_append]
      exact Nat.le_add_right _ _
  · exact ⟨⟨inserted.fresh, inserted.functions⟩, Nat.le_refl _⟩

/-- The number of a declared function is in use. -/
theorem lt_of_declare {name : String} {info : FnInfo} {id : Nat}
    (h : t.declare (.ofFunction name info) = .ok (id, t')) : info.index < t'.functions.length := by
  rw [declare] at h
  dsimp only at h
  split at h
  · cases h
  cases h
  change info.index < ((t.functions ++ List.replicate (info.index + 1 - t.functions.length) _).set _ _).length
  rw [List.length_set, List.length_append, List.length_replicate]
  omega

theorem retains_closeScope (t : Table) (l : Nat) : t.Retains (t.closeScope l).2 := by
  intro staffed
  rw [closeScope]
  split
  · exact ⟨staffed, Nat.le_refl _⟩
  · next open' =>
    refine ⟨⟨fun e mem => staffed.fresh e (List.mem_filter.1 mem).1, fun id mem => ?_⟩, Nat.le_refl _⟩
    obtain ⟨s, get, isSome, global⟩ := staffed.functions id mem
    refine ⟨s, lookup_filter get ?_, isSome, global⟩
    rw [bne_iff_ne, global]
    omega

end Table

/-! ### Steps that keep the functions -/

/-- All functions are in the table, also the current one and the one that a program starts in. -/
structure Context.IsStaffed (c : Context) : Prop where
  table : c.table.IsStaffed
  current : c.current < c.table.functions.length
  entry : entryIndex < c.table.functions.length

theorem Context.IsStaffed.retains {c : Context} (h : c.IsStaffed) {t : Table} (retains : c.table.Retains t) :
    IsStaffed { c with table := t } := by
  obtain ⟨staffed, le⟩ := retains h.table
  exact ⟨staffed, Nat.lt_of_lt_of_le h.current le, Nat.lt_of_lt_of_le h.entry le⟩

theorem Context.isStaffed_initial : Context.initial.IsStaffed := by
  have fresh : ∀ e ∈ Table.initial.entries, e.1 < Table.initial.nextId := by decide
  have functions : ∀ id ∈ Table.initial.functions, (Table.initial.get? id).any
      fun s => s.function?.isSome && s.layer == 0 := by decide
  refine ⟨⟨fresh, fun id mem => ?_⟩, by decide, by decide⟩
  obtain ⟨s, get, holds⟩ := Option.any_eq_true _ _ |>.1 (functions id mem)
  obtain ⟨isSome, global⟩ := Bool.and_eq_true_iff.1 holds
  exact ⟨s, get, isSome, beq_iff_eq.1 global⟩

namespace Lower

variable {α β : Type}

/-- A step keeps the functions, and their numbers. -/
class KeepsStaff (x : Lower α) : Prop where
  keeps {c c' : Context} {a : α} : c.IsStaffed → x c = .ok (a, c') →
    c'.IsStaffed ∧ c.table.functions.length ≤ c'.table.functions.length

/-- In a table with all its functions code can be appended. -/
theorem emit_eq_ok {c : Context} (h : c.IsStaffed) (op : Opcode) : ∃ c', emit op c = .ok ((), c') := by
  obtain ⟨result, appended⟩ := h.table.append h.current (.plain op)
  refine ⟨{ c with table := result.2 }, ?_⟩
  change (update .nowhere (·.append c.current (.plain op)) >>= fun _ => pure ()) c = _
  rw [bind_apply, update_apply, appended]
  rfl

instance keepsStaff_pure (a : α) : KeepsStaff (pure a) where
  keeps h eq := by
    cases eq
    exact ⟨h, Nat.le_refl _⟩

instance keepsStaff_throw (d : Diagnostic) : KeepsStaff (throw d : Lower α) where
  keeps _ eq := by cases eq

instance keepsStaff_fail (cause : Cause) (position : Position) : KeepsStaff (fail cause position : Lower α) :=
  keepsStaff_throw _

instance keepsStaff_get : KeepsStaff (get : Lower Context) where
  keeps h eq := by
    cases eq
    exact ⟨h, Nat.le_refl _⟩

instance keepsStaff_bind {x : Lower α} {g : α → Lower β} [KeepsStaff x] [∀ a, KeepsStaff (g a)] :
    KeepsStaff (x >>= g) where
  keeps h eq := by
    rw [bind_apply] at eq
    split at eq
    · next first =>
      obtain ⟨staffed, le⟩ := KeepsStaff.keeps h first
      obtain ⟨staffed', le'⟩ := KeepsStaff.keeps staffed eq
      exact ⟨staffed', Nat.le_trans le le'⟩
    · cases eq

instance keepsStaff_map {x : Lower α} {f : α → β} [KeepsStaff x] : KeepsStaff (f <$> x) := by
  rw [map_eq_pure_bind]
  infer_instance

instance keepsStaff_ite {p : Prop} [Decidable p] {x y : Lower α} [KeepsStaff x] [KeepsStaff y] :
    KeepsStaff (if p then x else y) := by
  split <;> infer_instance

theorem get_bind_apply (g : Context → Lower β) (c : Context) : (get >>= g) c = g c c :=
  rfl

theorem modify_bind_apply (f : Context → Context) (g : Unit → Lower β) (c : Context) :
    (modify f >>= g) c = g () (f c) :=
  rfl

theorem keepsStaff_update {position : Position} {f : Table → Except Cause (α × Table)}
    (h : ∀ {t t' : Table} {a : α}, f t = .ok (a, t') → t.Retains t') : KeepsStaff (update position f) where
  keeps staffed eq := by
    rw [update_apply] at eq
    split at eq
    · next changed =>
      cases eq
      exact ⟨staffed.retains (h changed), (h changed staffed.table).2⟩
    · cases eq

theorem keepsStaff_edit {f : Table → Nat → Except Cause (α × Table)}
    (h : ∀ {t t' : Table} {k : Nat} {a : α}, f t k = .ok (a, t') → t.Retains t') : KeepsStaff (edit f) := by
  have (c : Context) : KeepsStaff (update .nowhere (f · c.current)) := keepsStaff_update h
  exact keepsStaff_bind

/-- A question about a table. -/
theorem keepsStaff_read {position : Position} {f : Table → Except Cause α} :
    KeepsStaff (update position fun t => do return (← f t, t)) := by
  refine keepsStaff_update fun {t t' a} eq => ?_
  generalize f t = answer at eq
  cases answer with
  | error cause => cases eq
  | ok b =>
    cases eq
    exact .refl t

instance keepsStaff_ask (f : Table → Nat → Except Cause α) : KeepsStaff (ask f) := by
  have (c : Context) : KeepsStaff (update .nowhere fun t => do return (← f t c.current, t)) := keepsStaff_read
  exact keepsStaff_bind

instance keepsStaff_emit (op : Opcode) : KeepsStaff (emit op) := by
  have := keepsStaff_edit (f := (·.append · (.plain op))) Table.retains_edit
  exact keepsStaff_bind

instance keepsStaff_emitWith (op : Opcode) (operand : Int64) : KeepsStaff (emitWith op operand) := by
  have := keepsStaff_edit (f := (·.append · (.withOperand op operand))) Table.retains_edit
  exact keepsStaff_bind

instance keepsStaff_negate (n : Nat) : KeepsStaff (negate n) := by
  induction n with
  | zero => exact keepsStaff_pure ()
  | succ n ih => exact keepsStaff_bind

instance keepsStaff_placeholder (op : Opcode) : KeepsStaff (placeholder op) :=
  keepsStaff_edit Table.retains_placeholder

instance keepsStaff_addLocal (name : String) : KeepsStaff (edit (·.addLocal · name)) :=
  keepsStaff_edit Table.retains_edit

instance keepsStaff_patch (site : Site) (operand : Int64) : KeepsStaff (patch site operand) := by
  refine keepsStaff_update fun {t t' _} eq => ?_
  cases patched : t.patch site operand with
  | error cause =>
    rw [patched] at eq
    cases eq
  | ok u =>
    rw [patched] at eq
    cases eq
    exact Table.retains_modifyFunction (Table.modifyFunction_of_patch patched)

instance keepsStaff_patchJump (site : Site) (target : Nat) : KeepsStaff (patchJump site target) :=
  keepsStaff_patch ..

instance keepsStaff_here : KeepsStaff here :=
  keepsStaff_ask _

instance keepsStaff_literal (text : String) :
    KeepsStaff (update .nowhere fun t => .ok (t.declareLiteral text)) := by
  refine keepsStaff_update fun {t t' _} eq => ?_
  cases eq
  exact fun staffed => ⟨staffed.insert _, Nat.le_refl _⟩

instance keepsStaff_markInit (id : Nat) : KeepsStaff (update .nowhere fun t => .ok ((), t.markInit id)) := by
  refine keepsStaff_update fun {t t' _} eq => ?_
  cases eq
  exact Table.retains_modify t id (fun _ => rfl) fun _ => rfl

theorem keepsStaff_declare (name : Ident) {s : Symbol} (layer : ∀ info, s.meaning = .function info → s.layer = 0) :
    KeepsStaff (declare name s) := by
  have : KeepsStaff (update name.start (·.declare s)) := keepsStaff_update (Table.retains_declare · layer)
  exact keepsStaff_bind

instance keepsStaff_resolve (name : Ident) : KeepsStaff (resolve name) := by
  refine keepsStaff_update fun {t t' a} eq => ?_
  generalize t.lookup name.name = found at eq
  cases found with
  | error cause => cases eq
  | ok id =>
    dsimp only [bind, Except.bind] at eq
    split at eq
    · cases eq
      exact .refl t
    · cases eq

instance keepsStaff_valueType (name type : Ident) : KeepsStaff (valueType name type) := by
  unfold valueType
  split <;> infer_instance

instance keepsStaff_resultType (type : Ident) : KeepsStaff (resultType type) := by
  unfold resultType
  split <;> infer_instance

instance keepsStaff_storable (name : Ident) (ty : Ty) : KeepsStaff (storable name ty) := by
  unfold storable
  infer_instance

instance keepsStaff_address (name : Ident) (slot : Slot) : KeepsStaff (address name slot) := by
  cases slot <;> unfold address <;> infer_instance

instance keepsStaff_callee (name : Ident) : KeepsStaff (callee name) := by
  unfold callee
  refine @keepsStaff_bind _ _ _ _ _ fun found => ?_
  split
  split <;> infer_instance

instance keepsStaff_callInstr (index : Nat) : KeepsStaff (callInstr index) := by
  unfold callInstr
  infer_instance

instance keepsStaff_target (name : Ident) : KeepsStaff (target name) := by
  unfold target
  refine @keepsStaff_bind _ _ _ _ _ fun found => ?_
  split
  infer_instance

/-- Declarations of parameters. -/
instance keepsStaff_declareParams (layer index : Nat) (params : List (Param × Ty)) :
    KeepsStaff (declareParams layer index params) := by
  induction params generalizing index with
  | nil => exact keepsStaff_pure ()
  | cons p rest ih =>
    have := keepsStaff_declare p.1.name (s := { Symbol.ofVariable p.1.name.name p.2 layer p.1.isConst (.arg index)
      with isInit := true }) nofun
    have := ih (index + 1)
    exact keepsStaff_bind

instance keepsStaff_callMain : KeepsStaff callMain := by
  unfold callMain
  refine @keepsStaff_bind _ _ _ _ _ fun c => ?_
  split
  · next main _ =>
    have : KeepsStaff (update .nowhere fun t => do return (← t.function main, t)) := keepsStaff_read
    infer_instance
  · infer_instance

end Lower

namespace OnePass

open Lower

instance keepsStaff_compare (op : CompareOp) : KeepsStaff (compare op) := by
  cases op <;> unfold compare <;> dsimp only [CompareOp.test] <;> infer_instance

instance keepsStaff_reserve (layer : Nat) (name : Ident) : KeepsStaff (reserve layer name) := by
  unfold reserve
  infer_instance

instance keepsStaff_valueAddress (reserved : Option Nat) : KeepsStaff (valueAddress reserved) := by
  cases reserved <;> unfold valueAddress <;> infer_instance

instance keepsStaff_declareVariable (isConst isInit : Bool) (name : Ident) (ty : Ty) (layer : Nat)
    (reserved : Option Nat) (site : Option Site) :
    KeepsStaff (declareVariable isConst isInit name ty layer reserved site) := by
  unfold declareVariable
  refine @keepsStaff_bind _ _ _ _ _ fun c => ?_
  dsimp only
  have (slot : Slot) := keepsStaff_declare name (s := { Symbol.ofVariable name.name ty layer isConst slot
    with isInit }) nofun
  cases site <;> exact keepsStaff_bind

instance keepsStaff_closeCondition : KeepsStaff closeCondition := by
  unfold closeCondition
  infer_instance

instance keepsStaff_closeCond (skip : Site) (jump : Option Site) : KeepsStaff (closeCond skip jump) := by
  cases jump <;> unfold closeCond <;> infer_instance

/-- The function that is opened has a number of its own. -/
instance keepsStaff_openFunction (name : Ident) (params : List (Param × Ty)) (ret : Ty) :
    KeepsStaff (openFunction name params ret) where
  keeps {c c' layer} h eq := by
    rw [openFunction, get_bind_apply, declare, bind_assoc, Lower.bind_apply, update_apply] at eq
    cases declared : c.table.declare (.ofFunction name.name (.declared c.table.functionCount ret
        (params.map fun (p, ty) => (p.name.name, ty)))) with
    | error cause =>
      rw [declared] at eq
      cases eq
    | ok result =>
      have lt : c.table.functionCount < result.2.functions.length := Table.lt_of_declare declared
      have retains : c.table.Retains result.2 := Table.retains_declare declared fun _ _ => rfl
      rw [declared] at eq
      dsimp only at eq
      rw [pure_bind, modify_bind_apply, get_bind_apply, Lower.bind_apply] at eq
      split at eq
      · next c₂ params =>
        have opened := h.retains (t := result.2.openScope) fun staffed =>
          ⟨⟨(retains staffed).1.fresh, (retains staffed).1.functions⟩, (retains staffed).2⟩
        have keeps := fun staffed => KeepsStaff.keeps staffed params
        obtain ⟨staffed, le⟩ := keeps ⟨opened.table, opened.current, opened.entry⟩
        rw [modify_bind_apply] at eq
        cases eq
        exact ⟨⟨staffed.table, Nat.lt_of_lt_of_le lt le, staffed.entry⟩, Nat.le_trans (Nat.le_of_lt lt) le⟩
      · cases eq

instance keepsStaff_closeFunction (layer : Nat) (ret : Ty) : KeepsStaff (closeFunction layer ret) := by
  have leave : KeepsStaff (modify fun c : Context => { c with
      table := (c.table.closeScope layer).2
      current := entryIndex } : Lower Unit) := by
    refine ⟨fun {c c' _} h eq => ?_⟩
    cases eq
    have closed := h.retains (Table.retains_closeScope c.table layer)
    exact ⟨⟨closed.table, closed.entry, closed.entry⟩, (Table.retains_closeScope c.table layer h.table).2⟩
  unfold closeFunction
  infer_instance

end OnePass

end CZero
