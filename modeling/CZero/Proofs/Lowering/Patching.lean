import CZero.Proofs.Lowering.Faults
import CZero.Proofs.Lowering.Numbering

/-!
# Where operands are filled in

Lowering appends some instructions before their operand is known, and patches them later. Patching could
overwrite any operand of any function. To say which ones it does overwrite, lowering is written with
another step `fill` in the place of patching, and compared with itself:

    stmtBy patch s  =  stmt s
    stmtBy fill  s  =  stmt s    started where lowering is, if `fill` patches sites that await an operand

So it does not matter what patching does at any other site: a site is patched while lowering is in its
function, and before it has an operand. Since nothing awaits an operand in the end, each is patched once.
-/

namespace CZero

/-- A site is in the current function, and its instruction has no operand, although it needs one. -/
def Context.Awaits (c : Context) (site : Site) : Prop :=
  site.function = c.current ∧ ∃ f op, c.table.function c.current = .ok f ∧
    f.body[site.position]? = some (.plain op) ∧ op.hasOperand

namespace Lower

/-! ### Lowering with another way to fill in operands -/

section By

variable (fill : Site → Int64 → Lower Unit)

/-- `decl` with `fill` for `patch`. -/
def declBy (d : Decl) : Lower Unit := do
  let ty ← valueType d.name d.type
  let layer := (← get).table.layer
  let reserved ← if layer = 0 then pure none else some <$> edit (·.addLocal · d.name.name)
  let site ← match d.init with
    | none => pure none
    | some value => do
      let site ← match reserved with
        | some index => do
          emitWith .loca (Int64.ofNat index)
          pure none
        | none => some <$> placeholder .globa
      storable d.name (← expr value)
      emit .store64
      pure site
  if let some fault := d.cutOff then throw fault
  let global := (← get).table.globalCount
  let slot := match reserved with
    | some index => Slot.loc index
    | none => Slot.glob global
  let s := Symbol.ofVariable d.name.name ty layer d.isConst slot
  declare d.name { s with isInit := d.init.isSome }
  if let some site := site then fill site (Int64.ofNat global)

/-- `patchJump` with `fill` for `patch`. -/
def fillJump (site : Site) (target : Nat) : Lower Unit :=
  fill site (distance site.position target)

mutual

/-- `stmt` with `fill` for `patch`. -/
def stmtBy : Stmt → Lower Unit
  | .decl d => declBy fill d
  | .cond c => ifChainBy c
  | .loop c body => do
    emitWith .br 0
    let again ← here
    condition c
    let leave ← placeholder .br
    blockBy body
    let back ← here
    emitWith .br (distance back again)
    fillJump fill leave (back + 1)
  | .ret keyword value => ret keyword value
  | .block b => blockBy b
  | .empty => return ()
  | .expr e => do
    let _ ← expr e

/-- `block` with `fill` for `patch`. -/
def blockBy : Block → Lower Unit
  | .close => return ()
  | .cutOff d => throw d
  | .stmt s rest => do
    stmtBy s
    blockBy rest

/-- `ifChain` with `fill` for `patch`. -/
def ifChainBy : IfChain → Lower Unit
  | .mk c body otherwise => do
    condition c
    let skip ← placeholder .br
    blockBy body
    let jump ← elsePartBy otherwise
    let last ← here
    match jump with
    | some jump => do
      fillJump fill skip (jump.position + 1)
      fillJump fill jump (last + 1)
    | none => fillJump fill skip (last + 1)
    emitWith .br 0

/-- `elsePart` with `fill` for `patch`. -/
def elsePartBy : Else → Lower (Option Site)
  | .absent => return none
  | .block b => do
    let jump ← placeholder .br
    blockBy b
    return some jump
  | .chain c => do
    let jump ← placeholder .br
    ifChainBy c
    return some jump

end

/-- `fnItem` with `fill` for `patch`. -/
def fnItemBy (f : FnItem) : Lower Unit := do
  let types ← paramTypes f.params
  let ret ← match f.type with
    | .ok type => resultType type
    | .error d => throw d
  let index := (← get).table.functionCount
  let params := (f.params.map (·.name.name)).zip types
  declare f.name (.ofFunction f.name.name (.declared index ret params))
  modify fun c => { c with
    table := c.table.openScope
    main := if f.name.name = mainName then some index else c.main }
  let layer := (← get).table.layer
  declareParams layer 0 (f.params.zip types)
  modify fun c => { c with current := index }
  blockBy fill f.body
  if ret = .void then emit .ret
  modify fun c => { c with
    table := (c.table.closeScope layer).2
    current := entryIndex }

/-- `items` with `fill` for `patch`. -/
def itemsBy : List Item → Lower Unit
  | [] => return ()
  | .fn f :: rest => do
    fnItemBy fill f
    itemsBy rest
  | .decl d :: rest => do
    declBy fill d
    itemsBy rest

/-- `program` with `fill` for `patch`. -/
def programBy (p : Program) : Lower Position := do
  itemsBy fill p.items
  match p.finish with
  | .ok finish => do
    callMain
    return finish
  | .error d => throw d

end By

mutual

theorem stmtBy_patch : (s : Stmt) → stmtBy patch s = stmt s
  | .decl d => by
    rw [stmtBy, stmt]
    rfl
  | .cond c => by rw [stmtBy, stmt, ifChainBy_patch c]
  | .loop e body => by
    rw [stmtBy, stmt, blockBy_patch body]
    rfl
  | .ret keyword value => by rw [stmtBy, stmt]
  | .block b => by rw [stmtBy, stmt, blockBy_patch b]
  | .empty => by rw [stmtBy, stmt]
  | .expr e => by rw [stmtBy, stmt]

theorem blockBy_patch : (b : Block) → blockBy patch b = block b
  | .close => by rw [blockBy, block]
  | .cutOff d => by rw [blockBy, block]
  | .stmt s rest => by rw [blockBy, block, stmtBy_patch s, blockBy_patch rest]

theorem ifChainBy_patch : (c : IfChain) → ifChainBy patch c = ifChain c
  | .mk e body otherwise => by
    rw [ifChainBy, ifChain, blockBy_patch body, elsePartBy_patch otherwise]
    rfl

theorem elsePartBy_patch : (o : Else) → elsePartBy patch o = elsePart o
  | .absent => by rw [elsePartBy, elsePart]
  | .block b => by rw [elsePartBy, elsePart, blockBy_patch b]
  | .chain c => by rw [elsePartBy, elsePart, ifChainBy_patch c]

end

theorem itemsBy_patch (is : List Item) : itemsBy patch is = items is := by
  induction is with
  | nil => rfl
  | cons i is ih =>
    cases i with
    | fn f =>
      rw [itemsBy, items, ih, fnItemBy, blockBy_patch]
      rfl
    | decl d =>
      rw [itemsBy, items, ih]
      rfl

/-! ### The same result, whatever else is filled in -/

/-- A way to fill in operands that is right about sites that await one. -/
def FillsAwaiting (fill : Site → Int64 → Lower Unit) : Prop :=
  ∀ site operand (c : Context), c.Awaits site → fill site operand c = patch site operand c

/-- In context `c`, step `y` has the result of step `x`, and the latter reports mistakes of the source. -/
def Mirrors {α : Type} (y x : Lower α) (c : Context) : Prop :=
  y c = x c ∧ x.Reports c

section Mirrors

variable {α β : Type} {c : Context} {P : Prop} {Q : α → Context → Prop}

theorem Reports.mirrors {x : Lower α} (h : x.Reports c) : x.Mirrors x c :=
  ⟨rfl, h⟩

theorem mirrors_get {g g' : Context → Lower β} (h : (g' c).Mirrors (g c) c) :
    (get >>= g').Mirrors (get >>= g) c :=
  h

theorem mirrors_modify {f : Context → Context} {g g' : Unit → Lower β} (h : (g' ()).Mirrors (g ()) (f c)) :
    (modify f >>= g').Mirrors (modify f >>= g) c :=
  h

theorem Meets.mirrors_bind {x y : Lower α} {g g' : α → Lower β} (h : x.Meets c P Q) (first : y.Mirrors x c)
    (next : ∀ a c', P → Q a c' → (g' a).Mirrors (g a) c') : (y >>= g').Mirrors (x >>= g) c := by
  refine ⟨?_, h.reports_bind first.2 fun a c' holds result => (next a c' holds result).2⟩
  unfold Meets at h
  rw [bind_apply, bind_apply, first.1]
  cases eq : x c with
  | ok result =>
    rw [eq] at h
    exact (next _ _ h.1 h.2).1
  | error d => rfl

/-- A step after one that succeeds. -/
theorem Meets.mirrors_then {x : Lower α} {g g' : α → Lower β} (h : x.Meets c True Q)
    (next : ∀ a c', Q a c' → (g' a).Mirrors (g a) c') : (x >>= g').Mirrors (x >>= g) c :=
  h.mirrors_bind (h.reports trivial).mirrors fun a c' _ => next a c'

theorem mirrors_throw {d : Diagnostic} (h : d.cause.IsMistake) : Mirrors (throw d : Lower α) (throw d) c :=
  (reports_throw h).mirrors

theorem mirrors_throw_bind {d : Diagnostic} {g g' : α → Lower β} (h : d.cause.IsMistake) :
    (throw d >>= g').Mirrors (throw d >>= g) c :=
  ⟨rfl, reports_throw_bind h⟩

end Mirrors

variable {w : Surroundings} {c : Context} {f : FnInfo} {p : Point} {fill : Site → Int64 → Lower Unit}

/-- The operand that is missing may be filled in. -/
theorem mirrors_fill (fills : FillsAwaiting fill) {q : Point} {a b : List Instr} {op : Opcode} {k : Nat}
    (h : c.Wrote w f (a ++ .plain op :: b) q) (hk : k = f.body.length + a.length) (needs : op.hasOperand)
    (v : Int64) : (fill ⟨w.before.length, k⟩ v).Mirrors (patch ⟨w.before.length, k⟩ v) c := by
  refine ⟨fills _ _ _ ⟨h.current.symm, _, op, h.function, ?_, needs⟩, (meets_patch h hk v).reports trivial⟩
  have place : (f.body ++ a ++ .plain op :: b)[(f.body ++ a).length]? = some (.plain op) := by
    rw [List.getElem?_append_right (Nat.le_refl _), Nat.sub_self, List.getElem?_cons_zero]
  rwa [List.length_append, List.append_assoc, ← hk] at place

/-- What comes next finds the operand in its place. -/
theorem mirrors_fill_then (fills : FillsAwaiting fill) {q : Point} {a b : List Instr} {op : Opcode} {k : Nat}
    {v : Int64} {g g' : Unit → Lower Unit} (h : c.Wrote w f (a ++ .plain op :: b) q)
    (hk : k = f.body.length + a.length) (needs : op.hasOperand)
    (next : ∀ c', c'.Wrote w f (a ++ .withOperand op v :: b) q → (g' ()).Mirrors (g ()) c') :
    (fill ⟨w.before.length, k⟩ v >>= g').Mirrors (patch ⟨w.before.length, k⟩ v >>= g) c :=
  (meets_patch h hk v).mirrors_bind (mirrors_fill fills h hk needs v) fun _ c' _ => next c'

/-! ### Declarations -/

/-- A step that is taken unless a semicolon is missing. -/
theorem mirrors_unless_cutOff {cutOff : Option Diagnostic} {x y : Lower Unit} :
    (∀ fault ∈ cutOff, fault.cause.IsSyntactic) → y.Mirrors x c → (match cutOff with
      | some fault => throw fault >>= fun _ : PUnit => y
      | _ => y : Lower Unit).Mirrors (match cutOff with
      | some fault => throw fault >>= fun _ : PUnit => x
      | _ => x) c := by
  intro h step
  cases cutOff with
  | none => exact step
  | some fault => exact mirrors_throw_bind (h fault rfl).isMistake

/-- The end of a declaration: its name counts from now on, and then comes what comes. -/
theorem mirrors_declare (h : c.At w f p) {name : Ident} {ty : Ty} {isConst isInit : Bool} {slot : Slot}
    {layer : Nat} {g g' : Unit → Lower Unit} (notFn : ∀ i, slot ≠ .fn i)
    (hl : layer = if p.env.inner.isSome then 1 else 0)
    (next : ∀ c', c'.At w f (p.declare name.name slot ty isConst) → (g' ()).Mirrors (g ()) c') :
    (declare name ⟨name.name, .value, ty, layer, isConst, isInit, slot⟩ >>= g').Mirrors
      (declare name ⟨name.name, .value, ty, layer, isConst, isInit, slot⟩ >>= g) c :=
  (meets_declare h notFn hl).mirrors_bind (reports_declare _ _).mirrors fun _ c' _ h' => next c' h'

/-- A value is stored behind its address, and then comes what comes. -/
theorem mirrors_store {a : List Instr} {q : Point} {name : Ident} {e : Expr} {g g' : Lower Unit}
    (h : c.Wrote w f a q) (he : e.IsScanned)
    (next : ∀ c', c'.Wrote w f (a ++ ((e.gen q).1 ++ [.plain .store64]))
      ((e.gen q).2.emit [.plain .store64]) → g'.Mirrors g c') :
    (do
      storable name (← expr e)
      emit .store64
      g' : Lower Unit).Mirrors (do
      storable name (← expr e)
      emit .store64
      g) c := by
  refine (meets_expr e h).mirrors_bind (reports_expr e h he).mirrors fun ty c₁ _ ⟨_, h₁⟩ => ?_
  refine (meets_storable name ty).mirrors_bind (reports_storable name ty).mirrors ?_
  rintro _ _ - rfl
  exact (meets_emit h₁ .store64).mirrors_then fun _ c₂ h₂ => next c₂ h₂.trans.trans

/-- The slot of a global variable is filled in behind its declaration, where its address awaits it. -/
theorem mirrors_decl (fills : FillsAwaiting fill) (h : c.At w f p) {d : Decl} (hd : d.IsScanned) :
    (declBy fill d).Mirrors (decl d) c := by
  obtain ⟨isConst, name, type, init, cutOff⟩ := d
  obtain ⟨hinit, hcut⟩ := hd
  refine (meets_valueType name type).mirrors_bind (reports_valueType name type).mirrors ?_
  rintro ty _ - ⟨rfl, -⟩
  refine mirrors_get ?_
  by_cases inside : p.env.inner.isSome
  · have layer : c.table.layer = 1 := h.table.layer_eq.trans (if_pos inside)
    simp only [layer, Nat.one_ne_zero, if_false, map_eq_pure_bind, bind_assoc, pure_bind, Symbol.ofVariable]
    refine (meets_addLocal h name.name).mirrors_then ?_
    rintro _ c₁ ⟨rfl, h₁⟩
    cases init with
    | none =>
      refine mirrors_unless_cutOff hcut (mirrors_get ?_)
      exact mirrors_declare h₁ (by simp) (if_pos inside).symm fun _ _ => (reports_pure _).mirrors
    | some e =>
      refine (meets_emitWith h₁ .loca _).mirrors_then fun _ c₂ h₂ => ?_
      refine mirrors_store h₂ (hinit e rfl) fun c₃ h₃ => ?_
      refine mirrors_unless_cutOff hcut (mirrors_get ?_)
      exact mirrors_declare h₃ (by simp) (if_pos inside).symm fun _ _ => (reports_pure _).mirrors
  · have outside : p.env.inner = none := by simpa using inside
    have layer : c.table.layer = 0 := h.table.layer_eq.trans (if_neg inside)
    simp only [layer, if_true, pure_bind, Symbol.ofVariable]
    cases init with
    | none =>
      refine mirrors_unless_cutOff hcut (mirrors_get ?_)
      exact mirrors_declare h (by simp) (if_neg inside).symm fun _ _ => (reports_pure _).mirrors
    | some e =>
      simp only [map_eq_pure_bind, bind_assoc, pure_bind]
      refine (meets_placeholder h .globa).mirrors_then ?_
      rintro _ c₁ ⟨rfl, h₁⟩
      refine mirrors_store h₁ (hinit e rfl) fun c₂ h₂ => ?_
      refine mirrors_unless_cutOff hcut (mirrors_get ?_)
      refine mirrors_declare h₂ (by simp) (by simp [Expr.gen, outside]) fun c₃ h₃ => ?_
      have wrote := h₃.wrote.trans
      rw [List.append_nil] at wrote
      exact mirrors_fill fills (a := []) wrote rfl rfl _

/-! ### Statements -/

mutual

/-- Where lowering is, a statement has the same result, whatever is done at sites that await no operand. -/
theorem mirrors_stmt (fills : FillsAwaiting fill) (s : Stmt) {c : Context} {f : FnInfo} {p : Point}
    (h : c.At w f p) (inside : p.env.inner.isSome) (hs : s.IsScanned) :
    (stmtBy fill s).Mirrors (stmt s) c := by
  match s with
  | .decl d =>
    rw [stmtBy, stmt]
    exact mirrors_decl fills h hs
  | .cond i =>
    rw [stmtBy, stmt]
    exact mirrors_ifChain fills i h inside hs
  | .loop e body =>
    rw [stmtBy, stmt]
    obtain ⟨he, hbody⟩ := hs
    refine (meets_emitWith h .br 0).mirrors_then fun _ c₁ h₁ => ?_
    refine (meets_here h₁).mirrors_then ?_
    rintro _ _ ⟨rfl, rfl⟩
    refine (meets_condition h₁ e).mirrors_bind (reports_condition h₁ he).mirrors fun _ c₂ _ h₂ => ?_
    refine (meets_placeholder h₂ .br).mirrors_then ?_
    rintro _ c₃ ⟨rfl, h₃⟩
    refine (meets_block body h₃ inside).mirrors_bind (mirrors_block fills body h₃ inside hbody) ?_
    rintro _ c₄ - ⟨h₄, -⟩
    refine (meets_here h₄).mirrors_then ?_
    rintro _ _ ⟨rfl, rfl⟩
    refine (meets_emitWith h₄ .br _).mirrors_then fun _ c₅ h₅ => ?_
    exact mirrors_fill fills (a := []) h₅.trans.trans rfl rfl _
  | .ret keyword value =>
    rw [stmtBy, stmt]
    exact (reports_ret h keyword hs).mirrors
  | .block b =>
    rw [stmtBy, stmt]
    exact mirrors_block fills b h inside hs
  | .empty =>
    rw [stmtBy, stmt]
    exact (reports_pure _).mirrors
  | .expr e =>
    rw [stmtBy, stmt]
    exact ((reports_expr e h hs).bind fun _ _ _ => reports_pure _).mirrors

theorem mirrors_block (fills : FillsAwaiting fill) (b : Block) {c : Context} {f : FnInfo} {p : Point}
    (h : c.At w f p) (inside : p.env.inner.isSome) (hb : b.IsScanned) :
    (blockBy fill b).Mirrors (block b) c := by
  match b with
  | .close =>
    rw [blockBy, block]
    exact (reports_pure _).mirrors
  | .cutOff d =>
    rw [blockBy, block]
    exact mirrors_throw (Cause.IsSyntactic.isMistake hb)
  | .stmt s rest =>
    rw [blockBy, block]
    obtain ⟨hs, hrest⟩ := hb
    refine (meets_stmt s h inside).mirrors_bind (mirrors_stmt fills s h inside hs) ?_
    rintro _ c₁ - ⟨h₁, inside₁⟩
    exact mirrors_block fills rest h₁ inside₁ hrest

/-- Both jumps of a conditional statement await their distance when it is known. -/
theorem mirrors_ifChain (fills : FillsAwaiting fill) (i : IfChain) {c : Context} {f : FnInfo} {p : Point}
    (h : c.At w f p) (inside : p.env.inner.isSome) (hi : i.IsScanned) :
    (ifChainBy fill i).Mirrors (ifChain i) c := by
  match i with
  | .mk e body otherwise =>
    rw [ifChainBy, ifChain]
    obtain ⟨he, hbody, hother⟩ := hi
    refine (meets_condition h e).mirrors_bind (reports_condition h he).mirrors fun _ c₁ _ h₁ => ?_
    refine (meets_placeholder h₁ .br).mirrors_then ?_
    rintro _ c₂ ⟨rfl, h₂⟩
    refine (meets_block body h₂ inside).mirrors_bind (mirrors_block fills body h₂ inside hbody) ?_
    rintro _ c₃ - ⟨h₃, inside₃⟩
    refine (meets_elsePart otherwise h₃ inside₃).mirrors_bind
      (mirrors_elsePart fills otherwise h₃ inside₃ hother) fun jump c₄ _ ⟨_, h₄⟩ => ?_
    split at h₄
    · obtain ⟨rfl, h₄⟩ := h₄
      refine (meets_here h₄).mirrors_then ?_
      rintro _ _ ⟨rfl, rfl⟩
      refine mirrors_fill_then fills (a := []) h₄.trans.trans rfl rfl fun c₅ h₅ => ?_
      exact ((meets_emitWith h₅ .br 0).reports trivial).mirrors
    · next other _ =>
      obtain ⟨rfl, h₄⟩ := h₄
      refine (meets_here h₄).mirrors_then ?_
      rintro _ _ ⟨rfl, rfl⟩
      refine mirrors_fill_then fills (a := []) h₄.trans.trans rfl rfl fun c₅ h₅ => ?_
      -- the jump around the other part awaits its distance behind the code of the first
      have later : c₅.Wrote w _ ((.withOperand .br _ :: (body.gen _).1) ++ .plain .br :: other) _ := h₅
      have place (g : FnInfo) (q r : Point) (i : Instr) (code : List Instr) :
          ((g.write q [.plain .br]).write r code).body.length = g.body.length + (i :: code).length := by
        simp only [FnInfo.length_body_write, List.length_cons, List.length_nil]
        omega
      refine mirrors_fill_then fills later (place ..) rfl fun c₆ h₆ => ?_
      exact ((meets_emitWith h₆ .br 0).reports trivial).mirrors

theorem mirrors_elsePart (fills : FillsAwaiting fill) (o : Else) {c : Context} {f : FnInfo} {p : Point}
    (h : c.At w f p) (inside : p.env.inner.isSome) (ho : o.IsScanned) :
    (elsePartBy fill o).Mirrors (elsePart o) c := by
  match o with
  | .absent =>
    rw [elsePartBy, elsePart]
    exact (reports_pure _).mirrors
  | .block b =>
    rw [elsePartBy, elsePart]
    refine (meets_placeholder h .br).mirrors_then ?_
    rintro _ c₁ ⟨rfl, h₁⟩
    refine (meets_block b h₁ inside).mirrors_bind (mirrors_block fills b h₁ inside ho) fun _ _ _ _ => ?_
    exact (reports_pure _).mirrors
  | .chain i =>
    rw [elsePartBy, elsePart]
    refine (meets_placeholder h .br).mirrors_then ?_
    rintro _ c₁ ⟨rfl, h₁⟩
    refine (meets_ifChain i h₁ inside).mirrors_bind (mirrors_ifChain fills i h₁ inside ho) fun _ _ _ _ => ?_
    exact (reports_pure _).mirrors

end

/-! ### Programs -/

theorem reports_paramTypes (ps : List Param) (c : Context) : (paramTypes ps).Reports c := by
  induction ps generalizing c with
  | nil => exact reports_pure _
  | cons p ps ih =>
    refine (reports_valueType p.name p.type).bind fun _ c' _ => ?_
    exact (ih c').bind fun _ _ _ => reports_pure _

theorem reports_declareParams (layer index : Nat) (ps : List (Param × Ty)) (c : Context) :
    (declareParams layer index ps).Reports c := by
  induction ps generalizing index c with
  | nil => exact reports_pure _
  | cons p ps ih => exact (reports_declare _ _).bind fun _ c' _ => ih (index + 1) c'

variable {d : Draft}

theorem mirrors_fnItem (fills : FillsAwaiting fill) (h : c.Drafted d) {f : FnItem}
    (hf : (Item.fn f).IsScanned) : (fnItemBy fill f).Mirrors (fnItem f) c := by
  obtain ⟨htype, hbody⟩ := hf
  rw [fnItemBy, fnItem]
  refine (meets_paramTypes f.params).mirrors_bind (reports_paramTypes _ _).mirrors ?_
  rintro _ _ - ⟨rfl, rfl⟩
  cases ht : f.type with
  | error fault =>
    rw [ht] at htype
    exact mirrors_throw_bind (Cause.IsSyntactic.isMistake htype)
  | ok type =>
  refine (meets_resultType type).mirrors_bind (reports_resultType type).mirrors ?_
  rintro ret _ - ⟨rfl, -⟩
  refine mirrors_get ?_
  simp only [h.table.functionCount, ← List.map_prod_left_eq_zip]
  refine (meets_declare_function h.table f.name rfl rfl).mirrors_bind (reports_declare _ _).mirrors ?_
  rintro _ c₁ - ⟨-, -, shows⟩
  refine mirrors_modify (mirrors_get ?_)
  have opened := shows.openScope rfl
  simp only [opened.layer_eq, Option.isSome_some, if_true]
  refine (meets_declareParams (c := { c₁ with
    table := c₁.table.openScope
    main := if f.name.name = mainName then some d.fns.length else c₁.main }) opened 0 f.params).mirrors_bind
      (reports_declareParams _ _ _ _).mirrors ?_
  rintro _ c₂ - ⟨-, -, shows'⟩
  refine mirrors_modify ?_
  have start : Context.At ⟨d.fns, [], c₂.main⟩ { c₂ with current := d.fns.length }
      (.declared d.fns.length ret _) ⟨⟨⟨_, _⟩, ret⟩, [], _, none⟩ := ⟨shows', rfl, rfl, rfl, rfl, rfl⟩
  refine (meets_block f.body start rfl).mirrors_bind (mirrors_block fills f.body start rfl hbody) ?_
  rintro _ c₃ - ⟨wrote, -⟩
  by_cases void : ret = .void
  · simp only [void, if_true]
    exact (meets_emit wrote .ret).mirrors_then fun _ _ _ => ⟨rfl, fun _ error => by cases error⟩
  · simp only [void, if_false]
    exact ⟨rfl, fun _ error => by cases error⟩

theorem mirrors_items (fills : FillsAwaiting fill) (is : List Item) {c : Context} {d : Draft}
    (h : c.Drafted d) (hi : ∀ i ∈ is, i.IsScanned) : (itemsBy fill is).Mirrors (items is) c := by
  induction is generalizing c d with
  | nil => exact (reports_pure _).mirrors
  | cons i rest ih =>
    obtain ⟨first, later⟩ := List.forall_mem_cons.1 hi
    cases i with
    | fn f =>
      rw [itemsBy, items]
      refine (meets_fnItem h f).mirrors_bind (mirrors_fnItem fills h first) fun _ c₁ _ h₁ => ?_
      exact ih h₁ later
    | decl g =>
      rw [itemsBy, items]
      obtain ⟨_, _, _, -, -, -, here⟩ := drafted_at h
      refine (meets_globalDecl h g).mirrors_bind (mirrors_decl fills here first) fun _ c₁ _ h₁ => ?_
      exact ih h₁ later

theorem mirrors_program (fills : FillsAwaiting fill) {p : Program} (hp : p.IsScanned) :
    (programBy fill p).Mirrors (program p) .initial := by
  refine (meets_items p.items Context.drafted_initial).mirrors_bind
    (mirrors_items fills p.items Context.drafted_initial hp.items) fun _ c₁ _ h₁ => ?_
  have finish := hp.finish
  cases hf : p.finish with
  | error d =>
    rw [hf] at finish
    exact mirrors_throw (Cause.IsSyntactic.isMistake finish)
  | ok position =>
    exact (meets_callMain h₁).mirrors_then fun _ _ _ => (reports_pure _).mirrors

end Lower

/-- `analyse` with `fill` for `patch`. -/
def Program.analyseBy (fill : Site → Int64 → Lower Unit) (p : Program) : Except Diagnostic Analysis := do
  let (finish, context) ← (Lower.programBy fill p).run .initial
  return ⟨context.table, context.main, finish⟩

theorem Program.analyseBy_patch (p : Program) : p.analyseBy Lower.patch = p.analyse := by
  have same : Lower.programBy Lower.patch p = Lower.program p :=
    congrArg (· >>= _) (Lower.itemsBy_patch p.items)
  rw [analyseBy, analyse, same]

theorem Program.IsScanned.analyseBy_eq {p : Program} (h : p.IsScanned) {fill : Site → Int64 → Lower Unit}
    (fills : Lower.FillsAwaiting fill) : p.analyseBy fill = p.analyse := by
  rw [analyseBy, analyse, StateT.run, (Lower.mirrors_program fills h).1]
  rfl

/-- Analysis of a source reports mistakes of the source. -/
theorem Program.IsScanned.isMistake {p : Program} (h : p.IsScanned) {d : Diagnostic}
    (fault : p.analyse = .error d) : d.cause.IsMistake := by
  have patches : Lower.FillsAwaiting Lower.patch := fun _ _ _ _ => rfl
  refine (Lower.mirrors_program patches h).2 d ?_
  rw [analyse_eq] at fault
  split at fault
  · cases fault
  · next eq =>
    cases fault
    exact eq

/-! ### A site is patched once -/

theorem Table.function_of_modifyFunction {t t' : Table} {k : Nat} {g : FnInfo → FnInfo}
    (h : t.modifyFunction k g = .ok t') : ∃ f, t'.function k = .ok (g f) := by
  obtain ⟨id, f, number, found, rfl⟩ := modifyFunction_eq_ok h
  obtain ⟨s, get, meaning⟩ := Option.bind_eq_some_iff.1 found
  refine ⟨f, ?_⟩
  have same : (t.modify id (·.mapFunction g)).functions[k]? = some id := number
  rw [function, same, Option.bind_some, get?_modify, get, Option.map_some, if_pos rfl, Option.bind_some,
    Symbol.function?_mapFunction, meaning]
  rfl

/-- A site that was patched awaits nothing any more. -/
theorem Lower.not_awaits_of_patch {site : Site} {operand : Int64} {c c' : Context}
    (h : patch site operand c = .ok ((), c')) : ¬c'.Awaits site := by
  rintro ⟨current, f, op, function, place, -⟩
  unfold patch at h
  rw [update_apply] at h
  cases eq : c.table.patch site operand with
  | error cause =>
    rw [eq] at h
    cases h
  | ok t =>
    rw [eq] at h
    cases h
    obtain ⟨g, patched⟩ := Table.function_of_modifyFunction (Table.modifyFunction_of_patch eq)
    rw [← current, patched] at function
    cases function
    rw [FnInfo.setOperand, List.getElem?_modify_eq, Option.map_eq_map, Option.map_eq_some_iff] at place
    obtain ⟨i, -, plain⟩ := place
    cases plain

end CZero
