import CZero.Proofs.Preservation.Names
import CZero.Proofs.Preservation.Stmt

/-!
# Calls

A call gives the callee its result slots and arguments; it adds zeros for the local variables, and that is
where the variables of the callee are. When the callee is done, its result stands where the result slots
were.

Calls inside each other use up fuel. So that the machine does what calls mean is proved by induction on the
fuel, and each call is at least one step.
-/

namespace CZero

open State

/-- The text of a global. -/
def Image.payload (m : Image) (v : Int64) : Option String :=
  (index? v).bind fun i => m.globals[i]?.bind Global.text?

variable {m : Image} {L : Layer} {n : Nat} {a : Activation} {pc : Nat} {x : List Int64} {g : Array Int64}
  {st : Store}

/-! ### The library -/

section Library

open CZero.Action

theorem perform_callOf {f : LibraryFn} {i : Nat} (h : LibraryFn.all[i]? = some f) (s : State) :
    perform m (callOf i) s = library m f s := by
  have lt : i < libraryCount := by
    obtain ⟨lt, -⟩ := List.getElem?_eq_some_iff.1 h
    simpa using lt
  unfold callOf
  rw [if_pos lt]
  have small : i < 2 ^ 63 := by
    unfold libraryCount at lt
    omega
  refine (bind_of_ok (operand_eq ..) _).trans ?_
  rw [index?_ofNat small, Option.bind_some, h]

theorem read_of_nil {s : State} (h : s.console.input = []) : read s = .error .inputExhausted s := by
  simp only [Action.read, Console.read, h]

theorem read_of_cons {s : State} {v : Int64} {rest : List Int64} (h : s.console.input = v :: rest) :
    read s = .ok v { s with console := ⟨rest, s.console.output⟩ } := by
  simp only [Action.read, Console.read, h]

/-- The machine takes for characters what is one. -/
theorem charOfCode?_eq (code : Int64) : charOfCode? code = charOf? code.toInt := by
  have sign : code < 0 ↔ code.toInt < 0 := Int64.lt_iff_toInt_lt
  rw [charOfCode?, index?, charOf?]
  by_cases neg : code < 0
  · have := sign.1 neg
    rw [if_pos neg, Option.bind_none, if_neg (by omega)]
  · have := mt sign.2 neg
    rw [if_neg neg, Option.bind_some, Int64.toNatClampNeg]
    exact if_congr (by rw [Nat.isValidChar]; omega) rfl rfl

/-- A library function reads or prints. -/
theorem LibraryFn.sim_eval {f : LibraryFn} {i : Nat} (h : LibraryFn.all[i]? = some f)
    (integer : f.isInteger) {args : List Int64} (count : args.length = f.params.length)
    (hi : m.instr? a.function pc = some (callOf i)) (agrees : L.Agrees st.globals g) :
    Sim m L n (a.state pc (x ++ List.replicate f.ret.returnSlots 0 ++ args) g st.console)
      (a.Resumes L (pc + 1) x f.ret st) (Eval.ofOuter (f.eval m.payload args) st) := by
  have done : ∀ {v : Option Int64} {console : Console}, (v.isSome ↔ f.ret = .int) →
      library m f (a.state (pc + 1) (x ++ List.replicate f.ret.returnSlots 0 ++ args) g st.console) =
        .ok () (a.state (pc + 1) (x ++ v.toList) g console) →
      Sim m L n (a.state pc (x ++ List.replicate f.ret.returnSlots 0 ++ args) g st.console)
        (a.Resumes L (pc + 1) x f.ret st) (.ok v { st with console }) := by
    intro v console isSome ends
    refine .ok (leads_of_perform hi fun _ => ?_) ⟨isSome, rfl, g, agrees, rfl⟩
    rw [perform_callOf h, ends]
  have fails : ∀ {e : Fault} {y : List Int64},
      library m f (a.state (pc + 1) (x ++ List.replicate f.ret.returnSlots 0 ++ args) g st.console) =
        .error e (a.state (pc + 1) y g st.console) →
      Sim m L n (a.state pc (x ++ List.replicate f.ret.returnSlots 0 ++ args) g st.console)
        (a.Resumes L (pc + 1) x f.ret st) (.error (.fault e) st) := by
    intro e y ends
    exact .fault ⟨_, _, _, rfl, hi, (perform_callOf h _).trans ends⟩ rfl agrees
  cases f with
  | getdouble | putdouble => cases integer
  | getint | getchar =>
    obtain rfl := List.length_eq_zero_iff.1 count
    rw [List.append_nil] at done fails ⊢
    unfold eval Eval.ofOuter Outer.read
    cases queue : st.console.input with
    | nil =>
      simp only [Console.read, queue]
      refine fails (y := x ++ [0]) ?_
      change (read >>= setTop) (a.state (pc + 1) (x ++ [0]) g st.console) = _
      rw [bind_of_error (read_of_nil queue)]
    | cons v rest =>
      simp only [Console.read, queue]
      refine done (by simp [ret]) ?_
      change (read >>= setTop) (a.state (pc + 1) (x ++ [0]) g st.console) = _
      rw [bind_of_ok (read_of_cons queue), setTop_eq rfl]
      rfl
  | putint =>
    obtain ⟨v, rfl⟩ := List.length_eq_one_iff.1 count
    unfold eval Eval.ofOuter Outer.print
    refine done (by simp [ret]) ?_
    change (pop >>= fun v => write (toString v.toInt)) (a.state (pc + 1) (x ++ [] ++ [v]) g st.console) = _
    rw [bind_of_ok (pop_eq rfl)]
    rfl
  | putchar =>
    obtain ⟨v, rfl⟩ := List.length_eq_one_iff.1 count
    have popped : library m .putchar (a.state (pc + 1) (x ++ [] ++ [v]) g st.console) = _ :=
      bind_of_ok (pop_eq rfl) _
    rw [charOfCode?_eq] at popped
    cases char : charOf? v.toInt with
    | none =>
      rw [char] at popped
      unfold eval Eval.ofOuter
      simp only [char]
      exact fails popped
    | some c =>
      rw [char] at popped
      unfold eval Eval.ofOuter Outer.print
      simp only [char]
      exact done (by simp [ret]) popped
  | putstr =>
    obtain ⟨v, rfl⟩ := List.length_eq_one_iff.1 count
    have popped : library m .putstr (a.state (pc + 1) (x ++ [] ++ [v]) g st.console) = _ :=
      bind_of_ok (pop_eq rfl) _
    cases text : m.payload v with
    | none =>
      rw [← Image.payload, text] at popped
      unfold eval Eval.ofOuter
      simp only [text]
      exact fails popped
    | some c =>
      rw [← Image.payload, text] at popped
      unfold eval Eval.ofOuter Outer.print
      simp only [text]
      exact done (by simp [ret]) popped
  | putln =>
    obtain rfl := List.length_eq_zero_iff.1 count
    rw [List.append_nil] at done ⊢
    unfold eval Eval.ofOuter Outer.print
    exact done (by simp [ret]) rfl

end Library

/-! ### Functions of the program -/

/-- A program of the integer language and its image. -/
structure Program.Compiles (p : Program) (m : Image) : Prop where
  legal : p.Legal
  image : m.IsOf p.draft
  integer : p.isInteger
  short : p.tokens < 2 ^ 32

section Variables

theorem lookup_zip {names : List String} {args : List Int64} (nodup : names.Nodup)
    (length : args.length = names.length) :
    names.map (fun y => ((names.zip args).lookup y).getD 0) = args := by
  induction names generalizing args with
  | nil => rw [List.length_eq_zero_iff.1 length]; rfl
  | cons y names ih =>
    cases args with
    | nil => cases length
    | cons v args =>
      obtain ⟨fresh, nodup⟩ := List.nodup_cons.1 nodup
      rw [List.map_cons, List.zip_cons_cons, List.lookup_cons_self, Option.getD_some]
      congr 1
      refine (List.map_congr_left fun z hz => ?_).trans (ih nodup (Nat.succ_inj.1 length))
      have ne : (z == y) = false := by
        rw [beq_eq_false_iff_ne]
        rintro rfl
        exact fresh hz
      rw [List.lookup_cons, ne]

theorem FnItem.arguments_of_not_mem {f : FnItem} {args : List Int64} {y : String}
    (h : y ∉ f.params.map (·.name.name)) : f.arguments args y = 0 := by
  rw [arguments, List.lookup_eq_none_iff.2, Option.getD_none]
  intro z hz
  rw [bne_iff_ne]
  rintro rfl
  exact h (List.of_mem_zip hz).1

/-- Where the body of a function begins, the parameters have the arguments and all else is zero. -/
theorem FnItem.map_arguments {f : FnItem} {args : List Int64} (length : args.length = f.params.length)
    (nodup : (f.body.scope f.scope).Nodup) :
    (f.body.scope f.scope).reverse.map (f.arguments args) =
      args ++ List.replicate ((f.body.scope f.scope).length - f.params.length) 0 := by
  obtain ⟨later, eq⟩ := f.body.suffix_scope f.scope
  rw [← eq] at nodup ⊢
  obtain ⟨-, own, apart⟩ := List.nodup_append'.1 nodup
  rw [List.reverse_append, List.map_append, scope, List.reverse_reverse]
  congr 1
  · exact lookup_zip (List.nodup_reverse.1 own) (by rw [length, List.length_map])
  · refine List.eq_replicate_iff.2 ⟨by simp, fun v hv => ?_⟩
    obtain ⟨y, hy, rfl⟩ := List.mem_map.1 hv
    refine arguments_of_not_mem fun mem => ?_
    exact apart (List.mem_reverse.1 hy) (List.mem_reverse.2 mem)

end Variables

/-- What is left of a function that ended is its result. -/
theorem FnItem.sim_result {c : Scene} {f : FnItem} {outer : Layer} (host : c.Hosts m L outer f.ret)
    {code : List Instr} (holds : m.Holds c.act.function 0 (code ++ f.epilogue))
    (length : m.length c.act.function = (code ++ f.epilogue).length) {flow : Flow} {s : State}
    (ended : c.Ends L f.ret code.length flow st s) :
    ∃ k t, Leads m k s t ∧ c.Ends L f.ret 0 (.returned (f.result flow)) st t := by
  cases flow with
  | returned v =>
    have same : f.result (.returned v) = v := by
      cases v with
      | some v => rfl
      | none => exact if_neg fun int => by simpa using ended.1.2 int
    rw [same]
    exact ⟨0, s, .refl m s, ended⟩
  | next =>
    obtain ⟨work, shows⟩ := ended
    obtain ⟨g, agrees, rfl⟩ := shows.split
    have size := c.length_below _ (List.length_replicate (n := c.act.retSlots) (a := (0 : Int64)))
    rcases host.kind with int | void
    · -- The code of a function with a result ends here.
      have none : m.instr? c.act.function code.length = none := by
        have epilogue : f.epilogue = [] := if_neg (by rw [int]; simp)
        rw [epilogue, List.append_nil] at length
        exact Image.instr?_eq_none (Nat.le_of_eq length)
      have result : f.result .next = some 0 := if_pos int
      rw [result]
      refine ⟨0, _, leads_end none host.called size, by simp [int], g, agrees, ?_⟩
      rw [← host.result, int]
      rfl
    · have last : m.instr? c.act.function code.length = some (.plain .ret) := by
        have epilogue : f.epilogue = [.plain .ret] := if_pos void
        rw [epilogue, Image.holds_append, Image.holds_cons, Nat.zero_add] at holds
        exact holds.2.1
      have result : f.result .next = none := if_neg (by rw [void]; simp)
      rw [result]
      refine ⟨1, _, leads_ret last host.called size, by simp [void], g, agrees, ?_⟩
      rw [← host.result, void]
      rfl

namespace Program.Compiles

variable {p : Program} {d : Draft} {f : FnItem}

theorem sizes (h : p.Compiles m) (has : p.Has d f) :
    4 * f.params.length + f.body.tokens < 2 ^ 32 ∧ d.fns.length < 2 ^ 33 := by
  have short := h.short
  obtain ⟨before, after, items, rfl⟩ := has
  have all := h.legal.1
  rw [items] at all
  have fns := Draft.length_foldl_le all.append.1
  rw [Program.tokens, items, List.map_append, List.sum_append, List.map_cons, List.sum_cons,
    Item.tokens] at short
  have nine : Draft.initial.data.length + Draft.initial.fns.length = 9 := by decide
  omega

theorem isInteger (h : p.Compiles m) (has : p.Has d f) : (Item.fn f).isInteger p := by
  obtain ⟨before, after, items, -⟩ := has
  exact List.all_eq_true.1 h.integer _ (by rw [items]; simp)

/-- The slots of a function in the image, as numbers. -/
theorem slots (h : p.Compiles m) (has : p.Has d f) {F : Function}
    (eq : F = (d.infoOf f).function p.draft.data.length) :
    F.retSlots.toNat = f.ret.returnSlots ∧ F.paramSlots.toNat = f.params.length ∧
      F.localSlots.toNat = (f.body.scope f.scope).length - f.params.length := by
  obtain ⟨tokens, -⟩ := h.sizes has
  have legal := has.legal h.legal
  have finish := (legal.body.isAt legal.isAt_start).locals
  have scope := f.body.length_scope_le f.scope
  have params := f.length_scope
  have small := f.ret.returnSlots_le
  subst eq
  refine ⟨?_, ?_, ?_⟩
  · exact UInt32.toNat_ofNat_of_lt' (Nat.lt_of_le_of_lt small (by decide))
  · change (UInt32.ofNat f.signature.length).toNat = _
    rw [FnItem.signature, List.length_map]
    exact UInt32.toNat_ofNat_of_lt' (by simp only [UInt32.size]; omega)
  · change (UInt32.ofNat (f.body.gen (d.start f)).2.locals.length).toNat = _
    rw [← finish, Nat.add_sub_cancel_left]
    exact UInt32.toNat_ofNat_of_lt' (by simp only [UInt32.size]; omega)

/-- The machine does what a function of the program means. -/
theorem sim_eval (h : p.Compiles m) (has : p.Has d f) (names : p.draft.outer.IsOf p)
    (calls : (p.call m.payload n).Simulated m p.draft.outer p n) {args : List Int64}
    (count : args.length = f.params.length) (hi : m.instr? a.function pc = some (callOf d.fns.length))
    (agrees : p.draft.outer.Agrees st.globals g) :
    Sim m p.draft.outer (n + 1)
      (a.state pc (x ++ List.replicate f.ret.returnSlots 0 ++ args) g st.console)
      (a.Resumes p.draft.outer (pc + 1) x f.ret st)
      (Eval.ofOuter (f.eval (p.call m.payload n) n d.data.length args) st) := by
  obtain ⟨tokens, index⟩ := h.sizes has
  have integer := h.isInteger has
  simp only [Item.isInteger, Bool.and_eq_true, Bool.or_eq_true, decide_eq_true_eq] at integer
  obtain ⟨⟨⟨-, kind⟩, integer⟩, -⟩ := integer
  have legal := has.legal h.legal
  have finish := legal.body.isAt legal.isAt_start
  have scope := f.body.length_scope_le f.scope
  have params := f.length_scope
  have found := h.image.getElem? has
  generalize eq : (d.infoOf f).function p.draft.data.length = F at found
  obtain ⟨retSlots, paramSlots, localSlots⟩ := h.slots has eq.symm
  have holds := h.image.holds has
  have length : m.length (d.fns.length - entryIndex) =
      ((f.body.gen (d.start f)).1 ++ f.epilogue).length := by
    rw [Image.length, found, ← eq]
    rfl
  have body := f.length_body_le (d.start f)
  rw [Item.tokens] at body
  -- The function that is called, above what the caller has on its stack.
  let c : Scene := {
    act := a.enter (pc + 1) (d.fns.length - entryIndex) x.length F
    names := (f.body.scope f.scope).reverse
    below := x
    base := rfl
    nodup := List.nodup_reverse.2 finish.nodup
    small := by rw [List.length_reverse]; omega }
  have host : c.Hosts m p.draft.outer ((f.name.name, .fn d.fns.length f.ret) :: d.outer) f.ret := {
    outer := fun y b found => (has.suffix h.legal).mem (Layer.mem_of_lookup found)
    result := retSlots.symm
    called := List.cons_ne_nil _ _
    small := by rw [show m.length c.act.function = _ from length]; omega
    kind := kind }
  have start : (d.start f).IsAt c.act.paramSlots _ f.ret f.scope d.data.length :=
    (show c.act.paramSlots = f.params.length from paramSlots) ▸ legal.isAt_start
  have shows : c.Shows p.draft.outer 0 [] ⟨st.toWorld, f.arguments args⟩
      (c.act.state 0 (x ++ List.replicate f.ret.returnSlots 0 ++ args ++
        List.replicate F.localSlots.toNat 0) g st.console) := by
    refine ⟨g, agrees, ?_⟩
    have frame : c.frame ⟨st.toWorld, f.arguments args⟩ = x ++ List.replicate F.retSlots.toNat 0 ++
        (f.body.scope f.scope).reverse.map (f.arguments args) := rfl
    rw [frame, retSlots, FnItem.map_arguments count finish.nodup, localSlots, List.append_nil,
      ← List.append_assoc]
  have entered : Leads m 1 (a.state pc (x ++ List.replicate f.ret.returnSlots 0 ++ args) g st.console)
      (c.act.state 0 (x ++ List.replicate f.ret.returnSlots 0 ++ args ++
        List.replicate F.localSlots.toNat 0) g st.console) := by
    refine leads_call ?_ found (by omega) (by rw [List.length_replicate, retSlots])
      (by rw [count, paramSlots])
    have own : ¬d.fns.length < libraryCount := Nat.not_lt.2 (Nat.le_of_lt has.getElem?.2)
    rw [hi, callOf, if_neg own]
  have run := f.body.sim_exec names calls host start List.prefix_rfl legal.body integer
    (Image.holds_append.1 holds).1 shows
  rw [Nat.zero_add] at run
  have ended := run.before fun flow st t ended => FnItem.sim_result host holds length ended
  rw [FnItem.eval, if_pos count, Eval.ofOuter_bind, Nat.add_comm]
  refine .after entered ((Sim.inside st ended).bind ?_)
  rintro flow st' t ⟨locals, inner, isSome, g, agrees, rfl⟩
  exact .pure ⟨isSome, locals, g, agrees, rfl⟩

theorem names (h : p.Compiles m) : p.draft.outer.IsOf p := by
  refine h.legal.isOf ?_
  have short := h.short
  have sizes := Draft.length_foldl_le h.legal.1
  have nine : Draft.initial.data.length + Draft.initial.fns.length = 9 := by decide
  rw [Program.tokens] at short
  change (p.items.foldl Draft.add .initial).data.length ≤ _
  omega

/-- The machine does what calls mean, as far as there is fuel. -/
theorem simulated (h : p.Compiles m) (n : Nat) :
    (p.call m.payload n).Simulated m p.draft.outer p n := by
  induction n with
  | zero =>
    intro y i ty f args _ _ _ _ a pc x g st _ _
    exact ⟨0, _, .refl m _, Nat.le_refl 0⟩
  | succ n ih =>
    intro y i ty f args mem callee integer count a pc x g st hi agrees
    simp only [Program.call, callee]
    cases f with
    | library f => exact LibraryFn.sim_eval (h.legal.library mem callee).1 integer count hi agrees
    | declared f k =>
      obtain ⟨-, d, has, rfl, rfl, -⟩ := h.legal.declared mem callee
      exact h.sim_eval has h.names ih count hi agrees

end Program.Compiles

end CZero
