import CZero.Proofs.Codegen.Spans
import CZero.Proofs.Preservation.Expr

/-!
# Statements

The code of a statement does what the statement means: it goes on behind the statement, or has returned.
A statement may leave values on the stack, because the value of an expression that stands alone stays
there.
-/

namespace CZero

open State

/-- The function around the statements: its result type, what is declared outside of it, and that it was
called. -/
structure Scene.Hosts (c : Scene) (m : Image) (L outer : Layer) (ret : Ty) : Prop where
  outer : ∀ x b, outer.lookup x = some b → (x, b) ∈ L
  result : ret.returnSlots = c.act.retSlots
  called : c.act.callers ≠ []
  small : m.length c.act.function < 2 ^ 63
  kind : ret = .int ∨ ret = .void

/-- The machine goes on at place `pc`, or the function has returned. -/
def Scene.Ends (c : Scene) (L : Layer) (ret : Ty) (pc : Nat) (flow : Flow) (st : Store) (t : State) : Prop :=
  match flow with
  | .next => ∃ work, c.Shows L pc work st t
  | .returned v => (v.isSome ↔ ret = .int) ∧
    ∃ g, L.Agrees st.globals g ∧ t = c.act.returned (c.below ++ v.toList) g st.console

variable {m : Image} {L outer : Layer} {p : Program} {n : Nat} {call : Callees} {c : Scene} {ret : Ty}
  {P : Point} {σ : List String} {k pc : Nat} {work : List Int64} {st : Store} {s : State}

namespace Scene

/-- What is declared at a point has its place on the stack. -/
theorem Hosts.sees (host : c.Hosts m L outer ret) (place : P.IsAt c.act.paramSlots outer ret σ k)
    (order : σ.reverse <+: c.names) : c.Sees L P.env σ := by
  obtain ⟨l, inner, rfl, ordered⟩ := place.inner
  refine ⟨place.ret ▸ host.result, place.outer ▸ host.outer, fun x b found => ?_, fun x found => ?_⟩
  · rw [inner, Option.bind_some] at found
    have mem : (x, b) ∈ l := Layer.mem_of_lookup found
    refine ⟨List.mem_map_of_mem mem, ?_⟩
    obtain ⟨i, hi⟩ := List.mem_iff_getElem?.1 (List.mem_reverse.2 mem)
    obtain ⟨ty, isConst, rfl⟩ := ordered i x b hi
    obtain ⟨later, eq⟩ := order
    have found : (l.map Prod.fst).reverse[i]? = some x := by
      rw [← List.map_reverse, List.getElem?_map, hi]
      rfl
    refine ⟨i, ty, isConst, rfl, ?_⟩
    rw [← eq, List.getElem?_append_left (List.getElem?_eq_some_iff.1 found).1, found]
  · rw [inner, Option.bind_some] at found
    exact Layer.not_mem_of_lookup found

/-- A jump. -/
theorem Shows.jump {d : Int} (target : Nat) (h : c.Shows L pc work st s)
    (hi : m.instr? c.act.function pc = some (jumpBy d)) (eq : (target : Int) = pc + 1 + d)
    (le : target ≤ m.length c.act.function) (small : m.length c.act.function < 2 ^ 63) :
    ∃ t, Leads m 1 s t ∧ c.Shows L target work st t := by
  obtain ⟨g, agrees, rfl⟩ := h
  exact ⟨_, leads_jump hi eq le (by omega), g, agrees, rfl⟩

end Scene

theorem Image.Holds.le_length {j : Nat} {code : List Instr} {i : Instr} (h : m.Holds j pc (code ++ [i])) :
    pc + code.length + 1 ≤ m.length j :=
  Image.lt_length (Image.holds_cons.1 (Image.holds_append.1 h).2).1

/-! ### Simple statements -/

theorem Decl.gen_of_init {d : Decl} {e : Expr} (init : d.init = some e) :
    (d.gen P).1 =
      Slot.code 0 (.loc P.locals.length) ++ e.code P.env P.data.length ++ [.plain .store64] := by
  unfold Decl.gen
  rw [init]
  rfl

/-- A declaration gives the variable its initial value. -/
theorem Decl.sim_exec (names : L.IsOf p) (calls : call.Simulated m L p n) (host : c.Hosts m L outer ret)
    {d : Decl} (place : P.IsAt c.act.paramSlots outer ret σ k)
    (order : (d.name.name :: σ).reverse <+: c.names) (fits : d.Fits P.env) (integer : d.isInteger p)
    (holds : m.Holds c.act.function pc (d.gen P).1) (shows : c.Shows L pc work st s) :
    Sim m L n s (c.Ends L ret (pc + (d.gen P).1.length)) ((Stmt.decl d).exec call n σ k st) := by
  obtain ⟨-, -, typed⟩ := fits
  simp only [Decl.isInteger, Bool.and_eq_true] at integer
  obtain ⟨-, integer⟩ := integer
  rw [Stmt.exec]
  cases init : d.init with
  | none => exact .pure ⟨work, by simpa [Decl.gen, init] using shows⟩
  | some e =>
    obtain ⟨ty, type, -⟩ := typed e init
    have typed : (e.type? P.env).isSome := by rw [type]; rfl
    have kind : e.kind? p = some .int := by simpa [init, Expr.isInteger] using integer
    have found : c.names[σ.length]? = some d.name.name := by
      obtain ⟨later, eq⟩ := order
      simp [← eq]
    rw [List.reverse_cons] at order
    have sees := host.sees place ((List.prefix_append _ _).trans order)
    have locals := place.locals
    rw [gen_of_init init, Image.holds_append, Image.holds_append, Image.holds_cons, place.slot,
      place.data] at holds
    obtain ⟨⟨first, inner⟩, last, -⟩ := holds
    obtain ⟨t, leads, shows⟩ := shows.pushVariable (List.getElem?_eq_some_iff.1 found).1
      (fun lt => by omega) (host.result ▸ ret.returnSlots_le) first
    rw [← place.slot] at inner last
    rw [List.length_append, ← Nat.add_assoc] at last
    rw [gen_of_init init, place.data, List.length_append, List.length_append, ← Nat.add_assoc,
      ← Nat.add_assoc]
    refine .step leads ((e.sim_eval names calls sees typed kind inner shows).value.bind ?_)
    intro v st t shows
    have locates : c.Locates L (d.name.name :: σ) d.name.name _ := .inner List.mem_cons_self found
    exact (locates.store names last shows).bind fun _ st t shows => .pure ⟨work, shows⟩

/-- The result slots are left when the function returns. -/
theorem Scene.Shows.split (h : c.Shows L pc work st s) :
    ∃ g, L.Agrees st.globals g ∧ s = c.act.state pc
      (c.below ++ List.replicate c.act.retSlots 0 ++ (c.names.map st.locals ++ work)) g st.console := by
  obtain ⟨g, agrees, rfl⟩ := h
  exact ⟨g, agrees, by rw [frame, List.append_assoc _ (c.names.map _)]⟩

theorem Scene.length_below (c : Scene) (v : List Int64) (length : v.length = c.act.retSlots) :
    (c.below ++ v).length = c.act.base + c.act.retSlots := by
  rw [List.length_append, c.base, length]

/-- A value that is stored in the result slot is the result. -/
theorem Scene.Shows.storeResult {v : Int64}
    (h : c.Shows L pc (work ++ [Int64.ofNat (c.act.base + 0)] ++ [v]) st s) (one : c.act.retSlots = 1)
    (store : m.instr? c.act.function pc = some (.plain .store64))
    (last : m.instr? c.act.function (pc + 1) = some (.plain .ret)) (called : c.act.callers ≠ []) :
    ∃ g, L.Agrees st.globals g ∧ Leads m 2 s (c.act.returned (c.below ++ [v]) g st.console) := by
  obtain ⟨g, agrees, rfl⟩ := h
  have stored := leads_store_stack (i := c.act.base + 0) (x := c.frame st ++ work) (v := v) (g := g)
    (o := st.console) store (by rw [List.length_append, c.length_frame]; omega)
  have set : (c.frame st ++ work).set (c.act.base + 0) v =
      c.below ++ [v] ++ (c.names.map st.locals ++ work) := by
    simp [frame, one, ← c.base]
  rw [set] at stored
  refine ⟨g, agrees, ?_⟩
  rw [← List.append_assoc, ← List.append_assoc]
  exact stored.trans (leads_ret last called (c.length_below [v] one.symm))

/-- A `return` leaves the result on the stack of the caller. -/
theorem sim_ret (names : L.IsOf p) (calls : call.Simulated m L p n) (host : c.Hosts m L outer ret)
    {value : Option Expr} (place : P.IsAt c.act.paramSlots outer ret σ k)
    (order : σ.reverse <+: c.names) (legal : LegalRet P.env value) (integer : value.all (·.isInteger p))
    (holds : m.Holds c.act.function pc (genRet P value).1) (shows : c.Shows L pc work st s)
    (keyword : Position) :
    Sim m L n s (c.Ends L ret (pc + (genRet P value).1.length))
      ((Stmt.ret keyword value).exec call n σ k st) := by
  have result := host.result
  cases value with
  | none =>
    obtain rfl : ret = .void := place.ret ▸ legal
    obtain ⟨g, agrees, rfl⟩ := shows.split
    have leads := leads_ret (x := c.below ++ List.replicate c.act.retSlots 0)
      (y := c.names.map st.locals ++ work) (g := g) (o := st.console)
      (Image.holds_cons.1 holds).1 host.called (c.length_below _ List.length_replicate)
    rw [← result] at leads ⊢
    exact .step leads (.pure ⟨by simp, g, agrees, rfl⟩)
  | some e =>
    obtain ⟨type, ne⟩ := legal
    rw [place.ret] at type ne
    obtain rfl : ret = .int := host.kind.resolve_right ne
    have typed : (e.type? P.env).isSome := by rw [type]; rfl
    have kind : e.kind? p = some .int := of_decide_eq_true integer
    change m.Holds _ _ (([.withOperand .arga (Int64.ofNat 0)] ++ e.code P.env P.data.length ++
      [.plain .store64]) ++ [.plain .ret]) at holds
    rw [Image.holds_append, Image.holds_append, Image.holds_append, Image.holds_cons, Image.holds_cons,
      Image.holds_cons, place.data] at holds
    obtain ⟨⟨⟨⟨first, -⟩, inner⟩, store, -⟩, last, -⟩ := holds
    simp only [List.length_append, List.length_singleton, ← Nat.add_assoc] at inner store last
    obtain ⟨t, leads, shows⟩ := shows.push fun g => leads_arga first (by decide)
    rw [Stmt.exec]
    refine .step leads
      ((e.sim_eval names calls (host.sees place order) typed kind inner shows).value.bind ?_)
    intro v st t shows
    obtain ⟨g, agrees, leads⟩ := shows.storeResult result.symm store last host.called
    exact .step leads (.pure ⟨by simp, g, agrees, rfl⟩)

/-! ### Conditional statements and loops -/

/-- What goes on at place `pc` goes on where the jump there leads. -/
theorem Scene.Ends.jump {flow : Flow} {d : Int} {target : Nat} (h : c.Ends L ret pc flow st s)
    (hi : m.instr? c.act.function pc = some (jumpBy d)) (eq : (target : Int) = pc + 1 + d)
    (le : target ≤ m.length c.act.function) (small : m.length c.act.function < 2 ^ 63) :
    ∃ k t, Leads m k s t ∧ c.Ends L ret target flow st t := by
  cases flow with
  | next =>
    obtain ⟨work, shows⟩ := h
    obtain ⟨t, leads, shows⟩ := shows.jump _ hi eq le small
    exact ⟨1, t, leads, work, shows⟩
  | returned v => exact ⟨0, s, .refl m s, h⟩

section Jumps

variable {test inside : List Instr} {x : Eval Bool}

/-- The code of the parts of a conditional statement. -/
theorem holds_ifCode {j : Nat} {other : Option (List Instr)} (h : m.Holds j pc (ifCode test inside other)) :
    m.Holds j pc test ∧ m.Holds j (pc + test.length + 1) inside ∧
      ∀ code ∈ other, m.Holds j (pc + test.length + inside.length + 2) code := by
  cases other with
  | none =>
    obtain ⟨first, second⟩ := holds_ifCode_none h
    exact ⟨(Image.holds_append.1 first).1, (Image.holds_append.1 second).1, fun _ mem => by cases mem⟩
  | some other =>
    obtain ⟨first, second, third⟩ := holds_ifCode_some h
    refine ⟨(Image.holds_append.1 first).1, (Image.holds_append.1 second).1, ?_⟩
    rintro _ ⟨⟩
    exact (Image.holds_append.1 third).1

/-- One of the two blocks is executed, and then the machine goes on behind both. -/
theorem sim_ifCode {other : Option (List Instr)} {a b : Eval Flow} (host : c.Hosts m L outer ret)
    (holds : m.Holds c.act.function pc (ifCode test inside other))
    (hx : pc + test.length + 1 ≤ m.length c.act.function → ∀ st t, c.Shows L pc work st t →
      Sim m L n t (fun b => c.Shows L (pc + test.length + if b then 1 else 0) work) (x st))
    (ha : ∀ st t, c.Shows L (pc + test.length + 1) work st t →
      Sim m L n t (c.Ends L ret (pc + test.length + 1 + inside.length)) (a st))
    (hb : ∀ st t, c.Shows L (pc + test.length + inside.length + 2) work st t →
      Sim m L n t (c.Ends L ret (pc + test.length + inside.length + 2 + other.elim 0 List.length)) (b st))
    (shows : c.Shows L pc work st s) :
    Sim m L n s (c.Ends L ret (pc + (ifCode test inside other).length))
      ((do if ← x then a else b : Eval Flow) st) := by
  have small := host.small
  cases other with
  | none =>
    obtain ⟨first, second⟩ := holds_ifCode_none holds
    have skip := (Image.holds_cons.1 (Image.holds_append.1 first).2).1
    have join := (Image.holds_cons.1 (Image.holds_append.1 second).2).1
    have le := second.le_length
    have length : pc + (ifCode test inside none).length = pc + test.length + inside.length + 2 := by
      simp only [ifCode, List.length_append, List.length_singleton]
      omega
    rw [length]
    refine (hx first.le_length st s shows).bind fun holds st t shows => ?_
    cases holds with
    | true =>
      refine (ha st t shows).before fun flow st t h => ?_
      exact h.jump join (by omega) (by omega) small
    | false =>
      obtain ⟨u, leads, shows⟩ := shows.jump (pc + test.length + inside.length + 2) skip
        (by simp only [Bool.false_eq_true, if_false]; omega) (by omega) small
      exact .step leads (hb st u shows)
  | some other =>
    simp only [Option.elim_some] at hb
    obtain ⟨first, second, third⟩ := holds_ifCode_some holds
    have skip := (Image.holds_cons.1 (Image.holds_append.1 first).2).1
    have leap := (Image.holds_cons.1 (Image.holds_append.1 second).2).1
    have join := (Image.holds_cons.1 (Image.holds_append.1 third).2).1
    have le := third.le_length
    have length : pc + (ifCode test inside (some other)).length =
        pc + test.length + inside.length + 2 + other.length + 1 := by
      simp only [ifCode, List.length_append, List.length_singleton]
      omega
    rw [length]
    refine (hx first.le_length st s shows).bind fun holds st t shows => ?_
    cases holds with
    | true =>
      refine (ha st t shows).before fun flow st t h => ?_
      exact h.jump leap (by omega) (by omega) small
    | false =>
      obtain ⟨u, leads, shows⟩ := shows.jump (pc + test.length + inside.length + 2) skip
        (by simp only [Bool.false_eq_true, if_false]; omega) (by omega) small
      refine .step leads ((hb st u shows).before fun flow st t h => ?_)
      exact h.jump join (by omega) (by omega) small

/-- The block is executed as long as the condition holds. -/
theorem sim_loopCode {body : Eval Flow} (host : c.Hosts m L outer ret)
    (holds : m.Holds c.act.function pc (loopCode test inside))
    (hx : pc + 1 + test.length + 1 ≤ m.length c.act.function → ∀ work st t, c.Shows L (pc + 1) work st t →
      Sim m L n t (fun b => c.Shows L (pc + 1 + test.length + if b then 1 else 0) work) (x st))
    (hb : ∀ work st t, c.Shows L (pc + test.length + 2) work st t →
      Sim m L n t (c.Ends L ret (pc + test.length + 2 + inside.length)) (body st))
    (shows : c.Shows L pc work st s) :
    Sim m L n s (c.Ends L ret (pc + (loopCode test inside).length)) (Eval.repeat x body n st) := by
  have small := host.small
  obtain ⟨first, second⟩ := holds_loopCode holds
  have skip := (Image.holds_cons.1 (Image.holds_append.1 first).2).1
  have back := (Image.holds_cons.1 (Image.holds_append.1 second).2).1
  have le := second.le_length
  have enter : m.instr? c.act.function pc = some (jumpBy 0) := by
    simp only [loopCode, Image.holds_append, Image.holds_cons] at holds
    exact holds.1.1.1.1.1
  have length : pc + (loopCode test inside).length = pc + test.length + 2 + inside.length + 1 := by
    simp only [loopCode, List.length_append, List.length_singleton]
    omega
  rw [length]
  obtain ⟨t, leads, shows⟩ := shows.jump (pc + 1) enter (by omega) (by omega) small
  -- Each round starts at the condition, whatever earlier rounds left on the stack.
  refine .step leads (.imp (.repeats (A := fun st t => ∃ work, c.Shows L (pc + 1) work st t)
    (B := fun st t => ∃ work, c.Shows L (pc + test.length + 2) work st t)
    (C := fun st t => ∃ work, c.Shows L (pc + test.length + 2 + inside.length + 1) work st t)
    (D := fun v => c.Ends L ret 0 (.returned v)) ?_ ?_ (Nat.le_refl n) ⟨work, shows⟩) ?_)
  · rintro st t ⟨work, shows⟩
    refine (hx first.le_length work st t shows).before fun b st t shows => ?_
    cases b with
    | true => exact ⟨0, t, .refl m t, work, by simpa [Nat.add_right_comm _ 1] using shows⟩
    | false =>
      obtain ⟨u, leads, shows⟩ := shows.jump (pc + test.length + 2 + inside.length + 1) skip
        (by simp only [Bool.false_eq_true, if_false]; omega) (by omega) small
      exact ⟨1, u, leads, work, shows⟩
  · rintro st t ⟨work, shows⟩
    refine (hb work st t shows).imp fun flow st t h => ?_
    cases flow with
    | next =>
      obtain ⟨work, shows⟩ := h
      obtain ⟨u, leads, shows⟩ := shows.jump (pc + 1) back (by omega) (by omega) small
      exact ⟨u, leads, work, shows⟩
    | returned v => exact h
  · intro flow st t h
    cases flow with
    | next => exact h
    | returned v => exact h

end Jumps

/-! ### All statements -/

theorem reverse_scope {σ τ υ : List String} (grows : σ <:+ τ) (order : τ.reverse <+: υ) :
    σ.reverse <+: υ :=
  (List.reverse_prefix.2 grows).trans order

mutual

/-- The code of a statement does what the statement means. -/
theorem Stmt.sim_exec (names : L.IsOf p) (calls : call.Simulated m L p n) (host : c.Hosts m L outer ret) :
    (a : Stmt) → ∀ {P : Point} {σ : List String} {k pc : Nat} {work : List Int64} {st : Store} {s : State},
      P.IsAt c.act.paramSlots outer ret σ k → (a.scope σ).reverse <+: c.names → a.Legal P →
      a.isInteger p → m.Holds c.act.function pc (a.gen P).1 → c.Shows L pc work st s →
      Sim m L n s (c.Ends L ret (pc + (a.gen P).1.length)) (a.exec call n σ k st)
  | .decl d, _, _, _, _, _, _, _, place, order, legal, integer, holds, shows =>
    d.sim_exec names calls host place order legal.1 integer holds shows
  | .cond i, _, _, _, _, _, _, _, place, order, legal, integer, holds, shows =>
    i.sim_exec names calls host place order legal integer holds shows
  | .loop e body, P, σ, _, _, _, _, _, place, order, legal, integer, holds, shows => by
    obtain ⟨⟨ty, type⟩, legal⟩ := legal
    have typed : (e.type? P.env).isSome := by rw [type]; rfl
    simp only [Stmt.isInteger, Bool.and_eq_true] at integer
    have inner := (place.jump.genCond e).jump
    have sees := host.sees place.jump (reverse_scope (body.suffix_scope σ) order)
    refine sim_loopCode host holds (fun le work st t shows => ?_) (fun work st t shows => ?_) shows
    · rw [← place.data]
      exact e.sim_holds names calls sees host.small shows typed
        integer.1 (Image.holds_append.1 (holds_loopCode holds).1).1 le
    · exact body.sim_exec names calls host inner order legal integer.2
        (Image.holds_append.1 (holds_loopCode holds).2).1 shows
  | .ret keyword value, _, _, _, _, _, _, _, place, order, legal, integer, holds, shows =>
    sim_ret names calls host place order legal integer holds shows keyword
  | .block b, _, _, _, _, _, _, _, place, order, legal, integer, holds, shows =>
    b.sim_exec names calls host place order legal integer holds shows
  | .empty, _, _, _, _, work, _, _, _, _, _, _, _, shows => .pure ⟨work, shows⟩
  | .expr e, _, _, _, _, _, _, _, place, order, legal, integer, holds, shows => by
    obtain ⟨ty, type⟩ := legal
    obtain ⟨κ, kind⟩ := Option.isSome_iff_exists.1 integer
    rw [← place.data]
    refine (e.sim_eval names calls (host.sees place order) (by rw [type]; rfl) kind holds shows).bind ?_
    exact fun v st t given => .pure ⟨_, given.2⟩

theorem Block.sim_exec (names : L.IsOf p) (calls : call.Simulated m L p n) (host : c.Hosts m L outer ret) :
    (b : Block) → ∀ {P : Point} {σ : List String} {k pc : Nat} {work : List Int64} {st : Store} {s : State},
      P.IsAt c.act.paramSlots outer ret σ k → (b.scope σ).reverse <+: c.names → b.Legal P →
      b.isInteger p → m.Holds c.act.function pc (b.gen P).1 → c.Shows L pc work st s →
      Sim m L n s (c.Ends L ret (pc + (b.gen P).1.length)) (b.exec call n σ k st)
  | .close, _, _, _, _, work, _, _, _, _, _, _, _, shows => .pure ⟨work, shows⟩
  | .cutOff _, _, _, _, _, _, _, _, _, _, legal, _, _, _ => legal.elim
  | .stmt a rest, P, σ, _, _, _, _, _, place, order, legal, integer, holds, shows => by
    simp only [Block.isInteger, Bool.and_eq_true] at integer
    change m.Holds _ _ ((a.gen P).1 ++ (rest.gen (a.gen P).2).1) at holds
    change Sim _ _ _ _ (c.Ends L ret (_ + ((a.gen P).1 ++ (rest.gen (a.gen P).2).1).length)) _
    rw [Image.holds_append] at holds
    rw [List.length_append, ← Nat.add_assoc, Block.exec]
    have first := reverse_scope (rest.suffix_scope (a.scope σ)) order
    refine (a.sim_exec names calls host place first legal.1 integer.1 holds.1 shows).bind ?_
    intro flow st t ended
    cases flow with
    | next =>
      obtain ⟨work, shows⟩ := ended
      exact rest.sim_exec names calls host (legal.1.isAt place) order legal.2 integer.2 holds.2 shows
    | returned v => exact .pure ended

theorem IfChain.sim_exec (names : L.IsOf p) (calls : call.Simulated m L p n)
    (host : c.Hosts m L outer ret) :
    (i : IfChain) → ∀ {P : Point} {σ : List String} {k pc : Nat} {work : List Int64} {st : Store} {s : State},
      P.IsAt c.act.paramSlots outer ret σ k → (i.scope σ).reverse <+: c.names → i.Legal P →
      i.isInteger p → m.Holds c.act.function pc (i.gen P).1 → c.Shows L pc work st s →
      Sim m L n s (c.Ends L ret (pc + (i.gen P).1.length)) (i.exec call n σ k st)
  | .mk e body otherwise, P, σ, _, _, _, _, _, place, order, legal, integer, holds, shows => by
    obtain ⟨⟨ty, type⟩, legal, legalElse⟩ := legal
    have typed : (e.type? P.env).isSome := by rw [type]; rfl
    simp only [IfChain.isInteger, Bool.and_eq_true] at integer
    obtain ⟨⟨test, integer⟩, integerElse⟩ := integer
    have inner := (place.genCond e).jump
    have orderBody := reverse_scope (otherwise.suffix_scope (body.scope σ)) order
    have sees := host.sees place (reverse_scope (body.suffix_scope σ) orderBody)
    obtain ⟨holdsTest, holdsBody, holdsElse⟩ := holds_ifCode holds
    rw [IfChain.exec]
    refine sim_ifCode host holds (fun le st t shows => ?_) (fun st t shows => ?_) (fun st t shows => ?_) shows
    · rw [← place.data]
      exact e.sim_holds names calls sees host.small shows typed test holdsTest le
    · exact body.sim_exec names calls host inner orderBody legal integer holdsBody shows
    · exact otherwise.sim_exec names calls host (legal.isAt inner) order legalElse integerElse
        holdsElse shows

theorem Else.sim_exec (names : L.IsOf p) (calls : call.Simulated m L p n) (host : c.Hosts m L outer ret) :
    (o : Else) → ∀ {P : Point} {σ : List String} {k pc : Nat} {work : List Int64} {st : Store} {s : State},
      P.IsAt c.act.paramSlots outer ret σ k → (o.scope σ).reverse <+: c.names → o.Legal P →
      o.isInteger p → (∀ code ∈ (o.gen P).1, m.Holds c.act.function pc code) → c.Shows L pc work st s →
      Sim m L n s (c.Ends L ret (pc + (o.gen P).1.elim 0 List.length)) (o.exec call n σ k st)
  | .absent, _, _, _, _, work, _, _, _, _, _, _, _, shows => .pure ⟨work, shows⟩
  | .block b, _, _, _, _, _, _, _, place, order, legal, integer, holds, shows =>
    b.sim_exec names calls host place.jump order legal integer (holds _ rfl) shows
  | .chain i, _, _, _, _, _, _, _, place, order, legal, integer, holds, shows =>
    i.sim_exec names calls host place.jump order legal integer (holds _ rfl) shows

end

end CZero
