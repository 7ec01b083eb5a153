import CZero.Proofs.Lowering.Expr

/-!
# What lowering a statement does

Lowering a statement succeeds exactly if the statement keeps the static rules. It then has appended the
code that generation by structure gives: each jump, patched when its target was known, has the
distance that follows from the lengths of the parts.
-/

namespace CZero.Lower

variable {w : Surroundings} {c : Context} {f : FnInfo} {p : Point}

/-! ### Declarations -/

theorem meets_valueType (name type : Ident) :
    (valueType name type).Meets c type.IsStorable fun ty c' => c = c' ∧ ty = type.ty := by
  unfold valueType Ident.IsStorable Ident.ty
  cases eq : Ty.ofName? type.name with
  | none => exact meets_throw (by simp)
  | some ty =>
    by_cases storable : ty.isStorable
    · simp only [storable, if_true]
      exact meets_pure ⟨ty, rfl, storable⟩ ⟨rfl, rfl⟩
    · simp only [storable, Bool.false_eq_true, if_false]
      exact meets_throw (by simpa using storable)

theorem meets_addLocal (h : c.At w f p) (name : String) :
    (edit (·.addLocal · name)).Meets c True fun slot c' =>
      slot = p.locals.length ∧ c'.Wrote w f [] (p.reserve name) := by
  have eq : f.addLocal name = f.write (p.reserve name) [] := by
    simp [FnInfo.addLocal, FnInfo.write, Point.reserve, h.locals]
  obtain ⟨t, run, at'⟩ := h.modify (g := (·.addLocal name)) (q := p.reserve name) (fun _ => rfl)
    (fun _ => rfl) rfl rfl (by rw [eq]; rfl) h.last
  have run' : c.table.addLocal c.current name = .ok (p.locals.length, t) := by
    simp [Table.addLocal, h.function, run, h.locals, bind, Except.bind, pure, Except.pure]
  refine meets_edit ?_
  rw [run']
  exact ⟨trivial, rfl, by rwa [Context.Wrote, ← eq]⟩

/-- A value is stored behind its address, and then comes what comes. -/
theorem meets_store {α : Type} {a : List Instr} {q : Point} {name : Ident} {e : Expr} {next : Lower α}
    {R : Prop} {Q : α → Context → Prop} (h : c.Wrote w f a q)
    (need : R → ∃ ty, e.type? q.env = some ty ∧ ty ≠ .void)
    (then_ : ∀ c', (∃ ty, e.type? q.env = some ty ∧ ty ≠ .void) →
      c'.Wrote w f (a ++ (e.gen q).1 ++ [.plain .store64]) ((e.gen q).2.emit [.plain .store64]) →
      next.Meets c' R Q) :
    (do
      storable name (← expr e)
      emit .store64
      next).Meets c R Q := by
  refine (meets_expr e h).bind (fun r => (need r).imp fun _ => And.left) ?_
  rintro ty c₁ - ⟨type, h₁⟩
  refine (meets_storable name ty).bind ?_ ?_
  · intro r
    obtain ⟨ty', type', ne⟩ := need r
    exact (Option.some.inj (type.symm.trans type')) ▸ ne
  rintro _ _ ne rfl
  refine (meets_emit h₁ .store64).always fun _ c₂ h₂ => then_ c₂ ⟨ty, type, ne⟩ ?_
  simpa using Context.Wrote.trans (Context.Wrote.trans (a := (e.gen q).1) h₂)

/-- A variable is declared in the innermost layer. -/
theorem meets_declare_variable {v : View} (h : c.table.Shows v) {name : Ident} {ty : Ty}
    {isConst isInit : Bool} {slot : Slot} {layer : Nat} (notFn : ∀ i, slot ≠ .fn i)
    (hl : layer = if v.names.inner.isSome then 1 else 0) :
    (declare name ⟨name.name, .value, ty, layer, isConst, isInit, slot⟩).Meets c
      (v.names.declares name.name = false) fun _ c' =>
        c'.current = c.current ∧ c'.main = c.main ∧ c'.table.Shows { v with
          names := v.names.bind name.name (.var slot ty isConst)
          data := v.data ++ if v.names.inner.isSome then [] else [.scalar isConst] } := by
  have binding : Symbol.binding? ⟨name.name, .value, ty, layer, isConst, isInit, slot⟩
      = some (.var slot ty isConst) := by
    cases slot with
    | arg i | loc i | glob i => rfl
    | fn i => exact absurd rfl (notFn i)
  have declared := h.declare_variable binding (hl.trans h.layer_eq.symm)
  by_cases taken : v.names.declares name.name
  · rw [if_pos taken] at declared
    refine (meets_update (P := False) (Q := fun _ _ => True) ?_).bind ?_ fun _ _ no _ => no.elim
    · rw [declared]
      exact not_false
    · simp [taken]
  · rw [if_neg taken] at declared
    obtain ⟨id, t, run, shows⟩ := declared
    refine (meets_update (P := True) (Q := fun _ c' => c' = { c with table := t }) ?_).always ?_
    · rw [run]
      exact ⟨trivial, rfl⟩
    rintro _ _ rfl
    exact meets_pure (by simpa using taken) ⟨rfl, rfl, shows⟩

/-- A variable is declared behind its initial value. -/
theorem meets_declare (h : c.At w f p) {name : Ident} {ty : Ty} {isConst isInit : Bool} {slot : Slot}
    {layer : Nat} (notFn : ∀ i, slot ≠ .fn i) (hl : layer = if p.env.inner.isSome then 1 else 0) :
    (declare name ⟨name.name, .value, ty, layer, isConst, isInit, slot⟩).Meets c
      (p.env.declares name.name = false) fun _ c' => c'.At w f (p.declare name.name slot ty isConst) := by
  refine (meets_declare_variable h.table notFn hl).imp .rfl ?_
  rintro _ c' - ⟨current, main, shows⟩
  exact ⟨shows, current.trans h.current, main.trans h.main, h.ret, h.locals, h.last⟩

theorem meets_throw_bind {α β : Type} {d : Diagnostic} {next : α → Lower β} {R : Prop}
    {Q : β → Context → Prop} (h : ¬R) : (throw d >>= next).Meets c R Q :=
  (meets_throw (Q := fun _ _ => True) not_false).bind h fun _ _ no _ => no.elim

/-- Lowering a local declaration. -/
theorem meets_decl_local (h : c.At w f p) (inside : p.env.inner.isSome) (d : Decl) :
    (decl d).Meets c (d.Fits p.env ∧ p.env.declares d.name.name = false) fun _ c' =>
      c'.Wrote w f (d.gen p).1 (d.gen p).2 := by
  obtain ⟨isConst, name, type, init, cutOff⟩ := d
  refine (meets_valueType name type).bind (fun h => h.1.2.1) ?_
  rintro _ _ storable ⟨rfl, rfl⟩
  refine meets_get ?_
  have layer : _ = 1 := h.table.layer_eq.trans (if_pos inside)
  simp only [layer, Nat.one_ne_zero, if_false]
  cases init with
  | none =>
    simp only [map_eq_pure_bind, bind_assoc, pure_bind, Symbol.ofVariable]
    refine (meets_addLocal h name.name).always ?_
    rintro _ c₂ ⟨rfl, h₂⟩
    cases cutOff with
    | some fault => exact meets_throw_bind (by simp [Decl.Fits])
    | none =>
      refine meets_get ?_
      refine (meets_declare h₂ (by simp) (if_pos inside).symm).bind And.right fun _ c₃ fresh h₃ => ?_
      exact meets_pure ⟨⟨rfl, storable, nofun⟩, fresh⟩ h₃.wrote.trans
  | some e =>
    simp only [map_eq_pure_bind, bind_assoc, pure_bind, Symbol.ofVariable]
    refine (meets_addLocal h name.name).always ?_
    rintro _ c₂ ⟨rfl, h₂⟩
    refine (meets_emitWith h₂ .loca _).always fun _ c₃ h₃ => ?_
    refine meets_store h₃ ?_ fun c₄ typed h₄ => ?_
    · exact fun h => h.1.2.2 e rfl
    cases cutOff with
    | some fault => exact meets_throw_bind (by simp [Decl.Fits])
    | none =>
      refine meets_get ?_
      refine (meets_declare h₄ (by simp) (if_pos inside).symm).bind And.right fun _ c₅ fresh h₅ => ?_
      refine meets_pure ⟨⟨rfl, storable, fun _ h => Option.some.inj h ▸ typed⟩, fresh⟩ ?_
      simpa [Decl.gen, Expr.genStore, Expr.gen, Slot.code] using h₅.wrote.trans.trans

/-- Lowering a global declaration. The slot is patched in when the literals of the initial value have
theirs. -/
theorem meets_decl_global (h : c.At w f p) (outside : p.env.inner = none) (d : Decl) :
    (decl d).Meets c (d.Fits p.env ∧ p.env.declares d.name.name = false) fun _ c' =>
      c'.Wrote w f (d.globalCode p.env p.data.length)
        (((p.literals d.texts).emit (d.globalCode p.env p.data.length)).declare d.name.name
          (.glob (p.data.length + d.texts.length)) d.type.ty d.isConst) := by
  obtain ⟨isConst, name, type, init, cutOff⟩ := d
  refine (meets_valueType name type).bind (fun h => h.1.2.1) ?_
  rintro _ _ storable ⟨rfl, rfl⟩
  refine meets_get ?_
  have layer : _ = 0 := h.table.layer_eq.trans (by rw [outside]; rfl)
  simp only [layer, if_true]
  cases init with
  | none =>
    simp only [pure_bind, Symbol.ofVariable]
    cases cutOff with
    | some fault => exact meets_throw_bind (by simp [Decl.Fits])
    | none =>
      refine meets_get ?_
      rw [h.table.globalCount]
      refine (meets_declare h (by simp) (by rw [outside]; rfl)).bind And.right fun _ c₁ fresh h₁ => ?_
      refine meets_pure ⟨⟨rfl, storable, nofun⟩, fresh⟩ ?_
      simpa [Decl.globalCode, Decl.texts] using h₁.wrote
  | some e =>
    simp only [map_eq_pure_bind, bind_assoc, pure_bind, Symbol.ofVariable]
    refine (meets_placeholder h .globa).always ?_
    rintro _ c₁ ⟨rfl, h₁⟩
    refine meets_store h₁ ?_ fun c₂ typed h₂ => ?_
    · exact fun h => h.1.2.2 e rfl
    cases cutOff with
    | some fault => exact meets_throw_bind (by simp [Decl.Fits])
    | none =>
      refine meets_get ?_
      rw [h₂.table.globalCount]
      refine (meets_declare h₂ (by simp) (by simp [Expr.gen, outside])).bind And.right
        fun _ c₃ fresh h₃ => ?_
      have wrote := h₃.wrote.trans
      rw [List.append_nil, List.append_assoc] at wrote
      refine (meets_patch (a := []) wrote rfl _).imp
        ⟨fun _ => ⟨⟨rfl, storable, fun _ h => Option.some.inj h ▸ typed⟩, fresh⟩, fun _ => trivial⟩
        fun _ c₄ _ h₄ => ?_
      simpa [Decl.globalCode, Decl.texts, Expr.gen,
        Point.emit_plain_cons _ .globa (Int64.ofNat (p.data.length + e.texts.length))] using h₄

theorem isSome_inner_gen (d : Decl) (inside : p.env.inner.isSome) :
    (d.gen p).2.env.inner.isSome := by
  obtain ⟨inner, eq⟩ := Option.isSome_iff_exists.1 inside
  obtain ⟨isConst, name, type, init, cutOff⟩ := d
  cases init <;> simp [Decl.gen, Expr.genStore, Expr.gen, Point.declare, Point.reserve, Names.bind, eq]

/-! ### Return -/

theorem meets_ret (h : c.At w f p) (keyword : Position) (value : Option Expr) :
    (ret keyword value).Meets c (LegalRet p.env value) fun _ c' =>
      c'.Wrote w f (genRet p value).1 (genRet p value).2 := by
  refine (meets_function h).always ?_
  rintro _ _ ⟨rfl, rfl⟩
  cases value with
  | none =>
    simp only [h.ret]
    by_cases void : p.env.ret = .void
    · simp only [void, ne_eq, not_true_eq_false, if_false]
      exact (meets_emit h .ret).imp ⟨fun _ => void, fun _ => trivial⟩ fun _ _ _ h₁ => h₁
    · simp only [void, ne_eq, not_false_eq_true, if_true]
      exact meets_throw_bind void
  | some e =>
    simp only [h.ret]
    refine (meets_emitWith h .arga 0).always fun _ c₁ h₁ => ?_
    refine (meets_expr e h₁).bind (fun legal => ⟨_, legal.1⟩) ?_
    rintro ty c₂ - ⟨type, h₂⟩
    rw [Point.env_emit] at type
    by_cases bad : p.env.ret = .void ∨ ty ≠ p.env.ret
    · simp only [bad, if_true]
      refine meets_throw_bind ?_
      rintro ⟨type', ne⟩
      rw [type, Option.some.injEq] at type'
      exact bad.elim ne (fun h => h type')
    · simp only [bad, if_false]
      rw [not_or, not_not] at bad
      refine (meets_emit h₂ .store64).always fun _ c₃ h₃ => ?_
      refine (meets_emit h₃ .ret).imp ⟨fun _ => ⟨bad.2 ▸ type, bad.1⟩, fun _ => trivial⟩ fun _ c₄ _ h₄ => ?_
      have := Context.Wrote.trans (Context.Wrote.trans (a := (e.gen _).1) h₄.trans)
      simpa [genRet, Expr.genStore, Expr.gen] using this

/-! ### Statements -/

theorem distance_eq {site target : Nat} {n : Int} (h : (target : Int) = site + 1 + n) :
    distance site target = Int64.ofInt n := by
  rw [distance, h]
  congr 1
  omega

theorem meets_jump (h : c.At w f p) (n : Int) :
    (emitWith .br (Int64.ofInt n)).Meets c True fun _ c' => c'.Wrote w f [jumpBy n] p.jump :=
  meets_emitWith h .br _

mutual

/-- Lowering a statement succeeds exactly if it keeps the static rules, and appends its code. -/
theorem meets_stmt (s : Stmt) {c : Context} {f : FnInfo} {p : Point} (h : c.At w f p)
    (inside : p.env.inner.isSome) :
    (stmt s).Meets c (s.Legal p) fun _ c' =>
      c'.Wrote w f (s.gen p).1 (s.gen p).2 ∧ (s.gen p).2.env.inner.isSome := by
  match s with
  | .decl d =>
    rw [stmt, Stmt.Legal, Stmt.gen]
    exact (meets_decl_local h inside d).imp .rfl fun _ _ _ h₁ => ⟨h₁, isSome_inner_gen d inside⟩
  | .cond i =>
    rw [stmt, Stmt.Legal, Stmt.gen]
    exact meets_ifChain i h inside
  | .loop e body =>
    rcases hc : e.genCond p.jump with ⟨test, q⟩
    rcases hb : body.gen q.jump with ⟨code, r⟩
    simp only [stmt, Stmt.Legal, Stmt.gen, hc, hb]
    refine (meets_jump h 0).always fun _ c₁ h₁ => ?_
    refine (meets_here h₁).always ?_
    rintro _ _ ⟨rfl, rfl⟩
    refine (meets_condition h₁ e).bind And.left fun _ c₂ typed h₂ => ?_
    have in_q : (e.genCond p.jump).2.env.inner.isSome := inside
    rw [hc] at h₂ in_q
    refine (meets_placeholder h₂ .br).always ?_
    rintro _ c₃ ⟨rfl, h₃⟩
    refine (meets_block body h₃ in_q).bind And.right fun _ c₄ legal h₄ => ?_
    replace h₄ : c₄.Wrote w _ code r ∧ r.env.inner.isSome := hb ▸ h₄
    refine (meets_here h₄.1).always ?_
    rintro _ _ ⟨rfl, rfl⟩
    simp only [FnInfo.length_body_write, List.length_singleton]
    have back : distance (f.body.length + 1 + test.length + 1 + code.length) (f.body.length + 1)
        = Int64.ofInt (-(test.length + code.length + 2)) := distance_eq (by omega)
    rw [back]
    refine (meets_jump h₄.1 _).always fun _ c₅ h₅ => ?_
    have leave : distance (f.body.length + 1 + test.length)
        (f.body.length + 1 + test.length + 1 + code.length + 1) = Int64.ofInt (code.length + 1) :=
      distance_eq (by omega)
    rw [patchJump, leave]
    have wrote : c₅.Wrote w f (([jumpBy 0] ++ test) ++ .plain .br ::
        (code ++ [jumpBy (-(test.length + code.length + 2))])) (r.jump) := by
      simpa using h₅.trans.trans.trans.trans
    refine (meets_patch wrote (by simp; omega) _).imp ⟨fun _ => ⟨typed, legal⟩, fun _ => trivial⟩
      fun _ c₆ _ h₆ => ⟨?_, h₄.2⟩
    simpa [loopCode, jumpBy] using h₆
  | .ret keyword value =>
    rw [stmt, Stmt.Legal, Stmt.gen]
    refine (meets_ret h keyword value).imp .rfl fun _ _ _ h₁ => ⟨h₁, ?_⟩
    cases value <;> exact inside
  | .block b =>
    rw [stmt, Stmt.Legal, Stmt.gen]
    exact meets_block b h inside
  | .empty =>
    rw [stmt, Stmt.Legal, Stmt.gen]
    exact meets_pure trivial ⟨h.wrote, inside⟩
  | .expr e =>
    rw [stmt, Stmt.Legal, Stmt.gen]
    refine (meets_expr e h).bind id ?_
    rintro ty c₁ typed ⟨-, h₁⟩
    exact meets_pure typed ⟨h₁, inside⟩

/-- Lowering a block appends the code of its statements one after the other. -/
theorem meets_block (b : Block) {c : Context} {f : FnInfo} {p : Point} (h : c.At w f p)
    (inside : p.env.inner.isSome) :
    (block b).Meets c (b.Legal p) fun _ c' =>
      c'.Wrote w f (b.gen p).1 (b.gen p).2 ∧ (b.gen p).2.env.inner.isSome := by
  match b with
  | .close =>
    rw [block, Block.Legal, Block.gen]
    exact meets_pure trivial ⟨h.wrote, inside⟩
  | .cutOff d =>
    rw [block, Block.Legal]
    exact meets_throw not_false
  | .stmt s rest =>
    rw [block, Block.Legal, Block.gen]
    refine (meets_stmt s h inside).bind And.left fun _ c₁ legal h₁ => ?_
    refine (meets_block rest h₁.1 h₁.2).imp ⟨fun h => ⟨legal, h⟩, And.right⟩ fun _ c₂ _ h₂ => ?_
    exact ⟨h₂.1.trans, h₂.2⟩

/-- Lowering a conditional statement fills in its jumps. -/
theorem meets_ifChain (i : IfChain) {c : Context} {f : FnInfo} {p : Point} (h : c.At w f p)
    (inside : p.env.inner.isSome) :
    (ifChain i).Meets c (i.Legal p) fun _ c' =>
      c'.Wrote w f (i.gen p).1 (i.gen p).2 ∧ (i.gen p).2.env.inner.isSome := by
  match i with
  | .mk e body otherwise =>
    rcases hc : e.genCond p with ⟨test, q⟩
    rcases hb : body.gen q.jump with ⟨code, r⟩
    rcases ho : otherwise.gen r with ⟨other, t⟩
    simp only [ifChain, IfChain.Legal, IfChain.gen, hc, hb, ho]
    refine (meets_condition h e).bind And.left fun _ c₁ typed h₁ => ?_
    have in_q : (e.genCond p).2.env.inner.isSome := inside
    rw [hc] at h₁ in_q
    refine (meets_placeholder h₁ .br).always ?_
    rintro _ c₂ ⟨rfl, h₂⟩
    refine (meets_block body h₂ in_q).bind (·.2.1) fun _ c₃ legal h₃ => ?_
    replace h₃ : c₃.Wrote w _ code r ∧ r.env.inner.isSome := hb ▸ h₃
    refine (meets_elsePart otherwise h₃.1 h₃.2).bind (·.2.2) fun jump c₄ legal' h₄ => ?_
    rw [ho] at h₄
    have all := fun (_ : True) => And.intro typed (And.intro legal legal')
    cases other with
    | none =>
      obtain ⟨in_t, rfl, h₄⟩ := h₄
      refine (meets_here h₄).always ?_
      rintro _ _ ⟨rfl, rfl⟩
      simp only [FnInfo.length_body_write, List.length_singleton, List.length_nil, Nat.add_zero]
      have skip : distance (f.body.length + test.length)
          (f.body.length + test.length + 1 + code.length + 1) = Int64.ofInt (code.length + 1) :=
        distance_eq (by omega)
      rw [patchJump, skip]
      have wrote : c₄.Wrote w f (test ++ .plain .br :: code) t := by simpa using h₄.trans.trans.trans
      refine (meets_patch wrote rfl _).always fun _ c₅ h₅ => ?_
      refine (meets_jump h₅ 0).imp ⟨all, fun _ => trivial⟩ fun _ c₆ _ h₆ => ⟨?_, in_t⟩
      simpa [ifCode, jumpBy] using h₆.trans
    | some other =>
      obtain ⟨in_t, rfl, h₄⟩ := h₄
      refine (meets_here h₄).always ?_
      rintro _ _ ⟨rfl, rfl⟩
      simp only [FnInfo.length_body_write, List.length_cons]
      have skip : distance (f.body.length + test.length)
          (f.body.length + test.length + 1 + code.length + 1) = Int64.ofInt (code.length + 1) :=
        distance_eq (by omega)
      have jump : distance (f.body.length + test.length + 1 + code.length)
          (f.body.length + test.length + 1 + code.length + (other.length + 1) + 1)
          = Int64.ofInt (other.length + 1) := distance_eq (by omega)
      simp only [patchJump, List.length_nil, Nat.zero_add, skip, jump]
      have wrote : c₄.Wrote w f (test ++ .plain .br :: (code ++ .plain .br :: other)) t := by
        simpa using h₄.trans.trans.trans
      refine (meets_patch wrote rfl _).always fun _ c₅ h₅ => ?_
      have wrote : c₅.Wrote w f ((test ++ jumpBy (code.length + 1) :: code) ++ .plain .br :: other) t := by
        simpa [jumpBy] using h₅
      refine (meets_patch wrote (by simp; omega) _).always fun _ c₆ h₆ => ?_
      refine (meets_jump h₆ 0).imp ⟨all, fun _ => trivial⟩ fun _ c₇ _ h₇ => ⟨?_, in_t⟩
      simpa [ifCode, jumpBy] using h₇.trans

/-- Lowering what follows a conditional block leaves the jump around it open. -/
theorem meets_elsePart (o : Else) {c : Context} {f : FnInfo} {p : Point} (h : c.At w f p)
    (inside : p.env.inner.isSome) :
    (elsePart o).Meets c (o.Legal p) fun jump c' => (o.gen p).2.env.inner.isSome ∧
      match (o.gen p).1 with
      | none => jump = none ∧ c'.Wrote w f [] (o.gen p).2
      | some code => jump = some ⟨w.before.length, f.body.length⟩ ∧
        c'.Wrote w f (.plain .br :: code) (o.gen p).2 := by
  match o with
  | .absent =>
    rw [elsePart, Else.Legal, Else.gen]
    exact meets_pure trivial ⟨inside, rfl, h.wrote⟩
  | .block b =>
    rw [elsePart, Else.Legal, Else.gen]
    refine (meets_placeholder h .br).always ?_
    rintro _ c₁ ⟨rfl, h₁⟩
    refine (meets_block b h₁ inside).bind id fun _ c₂ legal h₂ => ?_
    exact meets_pure legal ⟨h₂.2, rfl, h₂.1.trans⟩
  | .chain i =>
    rw [elsePart, Else.Legal, Else.gen]
    refine (meets_placeholder h .br).always ?_
    rintro _ c₁ ⟨rfl, h₁⟩
    refine (meets_ifChain i h₁ inside).bind id fun _ c₂ legal h₂ => ?_
    exact meets_pure legal ⟨h₂.2, rfl, h₂.1.trans⟩

end

end CZero.Lower
