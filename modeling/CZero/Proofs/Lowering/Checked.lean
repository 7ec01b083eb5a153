import CZero.Proofs.Codegen.Marked
import CZero.Proofs.Lowering.Contract

/-!
# Balanced programs are checked

The marks of all functions of a balanced program can be followed. A function that is declared is tracked as a
whole (`Program.Legal.tracks_function`). The function that a program starts in has no addresses between two
initial values (`Item.scan_startCode`), and no branches. Main statement: the image of a balanced program is
checked (`Program.Legal.isChecked`).
-/

namespace CZero

/-! ### Marks along the code -/

section Along

variable {m : Image} {w : Nat → Bool} {M N : List Mark}

theorem Mark.store_mono (h : Mark.store w M = some N) : Mark.store (fun _ => true) M = some N := by
  unfold Mark.store at h ⊢
  split at h
  · exact h
  · obtain ⟨⟨-, calm⟩, eq⟩ := Option.ite_none_right_eq_some.1 h
    rw [if_pos ⟨rfl, calm⟩, eq]
  · cases h

/-- Marks can be followed wherever code stores. -/
theorem Instr.after?_mono {i : Instr} (h : i.after? m w M = some N) : i.after? m (fun _ => true) M = some N := by
  unfold Instr.after? at h ⊢
  cases op : i.opcode with
  | store64 =>
    rw [op] at h
    exact Mark.store_mono h
  | _ =>
    rw [op] at h
    exact h

theorem Image.scan_mono {code : List Instr} (h : m.scan w M code = some N) :
    m.scan (fun _ => true) M code = some N := by
  induction code generalizing M with
  | nil => exact h
  | cons i code ih =>
    rw [scan_cons] at h ⊢
    obtain ⟨P, after, rest⟩ := Option.bind_eq_some_iff.1 h
    rw [Instr.after?_mono after, Option.bind_some, ih rest]

/-- Marks that can be followed through code can be followed up to each of its instructions. -/
theorem Image.exists_scan_take {code : List Instr} {k : Nat} {i : Instr} (h : m.scan w M code = some N)
    (at_k : code[k]? = some i) : ∃ P Q, m.scan w M (code.take k) = some P ∧ i.after? m w P = some Q := by
  obtain ⟨lt, rfl⟩ := List.getElem?_eq_some_iff.1 at_k
  rw [← List.take_append_drop k code, List.drop_eq_getElem_cons lt, scan_append] at h
  obtain ⟨P, first, rest⟩ := Option.bind_eq_some_iff.1 h
  rw [scan_cons] at rest
  obtain ⟨Q, after, -⟩ := Option.bind_eq_some_iff.1 rest
  exact ⟨P, Q, first, after⟩

/-- The marks inside a part of a function. -/
theorem Image.exists_marks {f : Function} {j k : Nat} {i : Instr} {code : List Instr} (front back : List Instr)
    (found : m.functions[j]? = some f) (body : f.body = front ++ code ++ back)
    (start : m.scan (fun _ => true) [] front = some M) (h : m.scan w M code = some N)
    (at_k : code[k]? = some i) :
    ∃ P Q, m.marks? j (front.length + k) = some P ∧ i.after? m w P = some Q := by
  obtain ⟨P, Q, scan, after⟩ := exists_scan_take h at_k
  refine ⟨P, Q, ?_, after⟩
  have le : k ≤ code.length := Nat.le_of_lt (List.getElem?_eq_some_iff.1 at_k).1
  rw [marks?, found, Option.bind_some, body, List.append_assoc, List.take_length_add_append,
    List.take_append_of_le_length le, scan_append, start, Option.bind_some, scan_mono scan]

/-- Jumps of a function that is tracked land where nothing is marked. -/
theorem Image.Tracks.jumps {f : Function} {j pc target : Nat} {i : Instr} {v : Int64} (h : m.Tracks w f.body)
    (found : m.functions[j]? = some f) (small : f.body.length < 2 ^ 63) (hi : m.instr? j pc = some i)
    (branch : i.opcode.isBranch) (operand : i.operand = some v)
    (landed : index? (Int64.ofNat (pc + 1) + v) = some target) : m.marks? j target = some [] := by
  have at_pc : f.body[pc]? = some i := by
    rwa [instr?, found, Option.bind_some] at hi
  have holds : m.Holds j 0 f.body := by
    intro k x at_k
    rwa [instr?, found, Option.bind_some, Nat.zero_add]
  obtain ⟨d, n, e, offset, place, jump⟩ := h.lands holds pc i at_pc branch
  rw [operand, Option.some.injEq] at offset
  subst offset
  rw [Nat.zero_add] at place
  have at_n : f.body[n]? = some (jumpBy e) := by
    rwa [instr?, found, Option.bind_some] at jump
  have lt := (List.getElem?_eq_some_iff.1 at_n).1
  have eq := target_eq landed (by omega) (by omega)
  obtain rfl : target = n + 1 := by omega
  obtain ⟨N, -, scan⟩ := h.scan isCalm_nil
  obtain ⟨P, Q, marks, -⟩ := exists_marks [] [] found (by simp) rfl scan at_n
  rw [List.length_nil, Nat.zero_add] at marks
  rw [marks?_succ jump, marks, Option.bind_some, after?_jumpBy]

end Along

/-! ### Calls -/

/-- The slots of a function, as numbers. -/
theorem Image.HasFunction.slots {m : Image} {r : Roster} {k : Nat} {name : String} {shape : Shape}
    {refs : List Reference} {F : Function} (h : m.HasFunction r k name shape refs F)
    (params : shape.params < 2 ^ 32) (locals : shape.locals < 2 ^ 32) :
    F.retSlots.toNat = shape.ret.returnSlots ∧ F.paramSlots.toNat = shape.params ∧
      F.localSlots.toNat = shape.locals := by
  refine ⟨?_, ?_, ?_⟩
  · rw [h.retSlots]
    cases shape.ret <;> rfl
  · rw [h.paramSlots]
    exact UInt32.toNat_ofNat_of_lt' params
  · rw [h.localSlots]
    exact UInt32.toNat_ofNat_of_lt' locals

section Calls

variable {p : Program} {m : Image} {w : Nat → Bool} {M : List Mark}

/-- A library function takes its arguments and leaves its result. -/
theorem after?_library {f : LibraryFn} {i : Nat} (at_i : LibraryFn.all[i]? = some f)
    (calm : f.ret.returnSlots = 0 → IsCalm M) :
    (callOf i).after? m w (List.replicate f.params.length .value ++
      List.replicate f.ret.returnSlots .value ++ M) = some (List.replicate f.ret.returnSlots .value ++ M) := by
  have lt : i < libraryCount := (List.getElem?_eq_some_iff.1 at_i).1
  have small : i < 2 ^ 63 := Nat.lt_trans lt (by decide)
  simp only [callOf, if_pos lt, Instr.after?, Instr.withOperand, Instr.index?, Option.bind_some,
    Action.index?_ofNat small, at_i]
  cases f with
  | getdouble => simp [LibraryFn.after?, LibraryFn.params, LibraryFn.ret, Ty.returnSlots, calm rfl]
  | _ => simp [LibraryFn.after?, LibraryFn.params, LibraryFn.ret, Ty.returnSlots]

/-- A function takes its arguments and leaves its result. -/
theorem Function.after?_eq {F : Function} {params ret : Nat} (hp : F.paramSlots.toNat = params)
    (hr : F.retSlots.toNat = ret) (calm : ret = 0 → IsCalm M) :
    F.after? (List.replicate params .value ++ List.replicate ret .value ++ M)
      = some (List.replicate ret .value ++ M) := by
  have own : IsCalm (List.replicate params Mark.value ++ List.replicate ret .value) :=
    (isCalm_replicate params).append (isCalm_replicate ret)
  have taken : F.taken = (List.replicate params Mark.value ++ List.replicate ret Mark.value).length := by
    rw [Function.taken, hp, hr, List.length_append, List.length_replicate, List.length_replicate, Nat.add_comm]
  unfold Function.after?
  rw [if_pos, List.append_assoc, hp, List.drop_left' (List.length_replicate)]
  refine ⟨?_, ?_, fun zero => own.append (calm (hr ▸ zero))⟩
  · rw [taken]
    exact (List.prefix_append _ M).length_le
  · rwa [taken, List.take_left]

/-- What a balanced call names is what its number stands for. -/
theorem Program.Legal.isMarked (legal : p.Legal) (short : p.tokens < 2 ^ 32)
    (writable : ∀ {i name}, (rosterOf p.items).globals[i]? = some (.scalar name false) → w i) :
    (rosterOf p.items).IsMarked p p.image w where
  small := by
    have le := legal.roster_le
    omega
  writable := writable
  call := by
    intro x index ret f has callee
    have mem : (x, .fn index ret) ∈ p.draft.outer := by
      rcases has with ⟨g, at_i, rfl, rfl⟩ | ⟨le, at_i⟩
      · exact mem_library legal at_i
      · have own := legal.enrolls.functions _ _ _ at_i
        rwa [Nat.add_sub_cancel' le] at own
    cases f with
    | library g =>
      obtain ⟨at_i, rfl⟩ := legal.library mem callee
      exact ⟨rfl, fun M calm => after?_library at_i calm⟩
    | declared g n =>
      obtain ⟨-, d, ⟨before, after, items, rfl⟩, rfl, -, rfl⟩ := legal.declared mem callee
      refine ⟨rfl, fun M calm => ?_⟩
      have count := legal.length_fns items
      have few := legal.number_le items
      have sizes := shape_le items
      have function := legal.hasFunction_declared items
      obtain ⟨slots, params, -⟩ := function.slots (by omega) (by omega)
      have number : callOf (before.foldl Draft.add .initial).fns.length =
          .withOperand .call (Int64.ofNat ((Item.fns before).length + 1)) := by
        rw [callOf, if_neg (by rw [count]; exact Nat.not_lt.2 (Nat.le_add_right _ _)), count,
          Nat.add_sub_cancel_left]
      simp only [number, Instr.after?, Instr.withOperand, Image.callee?, Instr.index?, Option.bind_some,
        Action.index?_ofNat (show (Item.fns before).length + 1 < 2 ^ 63 by omega), if_neg (Nat.succ_ne_zero _), function.place]
      exact Function.after?_eq params slots calm

end Calls

/-! ### Functions -/

section Functions

variable {p : Program} {w : Nat → Bool}

/-- A function other than the first is one that the program declares. -/
theorem Program.Legal.exists_of_functions (legal : p.Legal) {k : Nat} {F : Function}
    (found : p.image.functions[k + 1]? = some F) :
    ∃ before f after, p.items = before ++ .fn f :: after ∧ (Item.fns before).length = k ∧
      F = ((before.foldl Draft.add .initial).infoOf f).function p.draft.data.length := by
  have lt := (List.getElem?_eq_some_iff.1 found).1
  have count := legal.enrolls.count
  simp only [Program.image, List.length_map, List.length_drop, count, rosterOf, List.length_cons] at lt
  obtain ⟨before, after, items, rfl⟩ :=
    Item.exists_of_fns (List.getElem?_eq_getElem (show k < (Item.fns p.items).length by omega))
  have place := (legal.hasFunction_declared items).place
  rw [found, Option.some.injEq] at place
  exact ⟨before, _, after, items, rfl, place⟩

/-- Marks can be followed through a function that the program declares. -/
theorem Program.Legal.tracks_function (legal : p.Legal) (balanced : p.isBalanced)
    (known : (rosterOf p.items).IsMarked p p.image w) {before after : List Item} {f : FnItem}
    (items : p.items = before ++ .fn f :: after) :
    p.image.Tracks w ((before.foldl Draft.add .initial).infoOf f).body := by
  have parts := legal.1
  rw [items] at parts
  obtain ⟨first, own, -⟩ := parts.append
  have covers := ((Draft.enrolls_foldl first).addFn own).covers.append after
  rw [(Draft.addFn_eq own).1, List.append_assoc, List.singleton_append, ← items] at covers
  have room : (f.body.scope f.scope).length ≤ f.params.length + f.body.decls.length := by
    rw [f.body.length_scope, f.length_scope]
  have inside : f.body.isBalanced p := List.all_eq_true.1 balanced (.fn f) (by rw [items]; simp)
  refine (f.body.tracks_gen covers known own.isAt_start own.body inside room).append ?_
  unfold FnItem.epilogue
  split
  · exact Image.tracks_of_forall (by decide) fun calm => ⟨_, calm, rfl⟩
  · exact Image.tracks_nil

end Functions

/-! ### The function that a program starts in -/

section Start

variable {p : Program} {m : Image} {w : Nat → Bool}

/-- In front of the store there are the address of the global and its initial value. -/
theorem Expr.scan_initial {ρ : Env} {n slot : Nat} {e : Expr} (h : ρ.IsMarked p m w)
    (typed : (e.type? ρ).isSome) (value : e.isValue p) (small : slot < 2 ^ 62) :
    m.scan w [] ([.withOperand .globa (Int64.ofNat slot)] ++ e.code ρ n) = some [.value, .global slot] := by
  simp [after?_globa small, Expr.scan_value h typed value]

/-- An initial value is stored, and nothing is left. -/
theorem Decl.scan_globalCode {ρ : Env} {n : Nat} {g : Decl} (h : ρ.IsMarked p m w) (fits : g.Fits ρ)
    (balanced : g.isBalanced p) (small : n + g.texts.length < 2 ^ 62) (writable : w (n + g.texts.length)) :
    m.scan w [] (g.globalCode ρ n) = some [] := by
  unfold Decl.globalCode
  unfold Decl.isBalanced at balanced
  cases init : g.init with
  | none => rfl
  | some e =>
    rw [init] at balanced
    obtain ⟨ty, typed, -⟩ := fits.2.2 e init
    have code := e.scan_initial h (n := n) (by rw [typed]; rfl) balanced small
    simp only [Image.scan_append _ [_], code, Option.bind_some, Image.scan_cons, after?_store64, Image.scan_nil]
    simp [Mark.store, writable, isCalm_nil]

theorem Decl.isBranch_globalCode {ρ : Env} {n : Nat} {g : Decl} (balanced : g.isBalanced p) :
    ∀ i ∈ g.globalCode ρ n, i.opcode.isBranch = false := by
  unfold Decl.globalCode
  unfold Decl.isBalanced at balanced
  cases init : g.init with
  | none => exact List.forall_mem_nil _
  | some e =>
    rw [init] at balanced
    have value : e.yield? p = some 1 := of_decide_eq_true balanced
    exact List.forall_mem_append.2 ⟨List.forall_mem_cons.2 ⟨rfl, e.isBranch_code ρ n (by rw [value]; rfl)⟩,
      List.forall_mem_singleton.2 rfl⟩

/-- Initial values are stored one after the other, in globals that are declared here. -/
theorem Item.scan_startCode {d : Draft} {before items : List Item} (h : d.Enrolls before) (more : List Item)
    (known : (rosterOf (before ++ (items ++ more))).IsMarked p m w) (legal : LegalItems d items)
    (balanced : ∀ i ∈ items, i.isBalanced p) (writable : ∀ k, d.data.length ≤ k → w k) :
    m.scan w [] (Item.startCode d items) = some [] := by
  induction items generalizing d before with
  | nil => rfl
  | cons i rest ih =>
    have later := fun j mem => balanced j (List.mem_cons_of_mem i mem)
    have same : before ++ (i :: rest ++ more) = before ++ [i] ++ (rest ++ more) := by simp
    cases i with
    | fn f =>
      refine ih (h.addFn legal.1) (same ▸ known) legal.2 later fun k le => writable k ?_
      have := (Draft.addFn_eq legal.1).2
      omega
    | decl g =>
      have data : (d.addDecl g).data.length = d.data.length + g.texts.length + 1 := by
        simp [Draft.addDecl, Nat.add_assoc]
      have small : d.data.length + g.texts.length < 2 ^ 62 := by
        have size := known.small
        rw [globals_rosterOf_append, List.length_append, ← h.length_data, List.cons_append, List.flatMap_cons,
          List.length_append, Item.registrations, List.length_append, List.length_map,
          List.length_singleton] at size
        omega
      have env := (Draft.agrees_env (h.covers.append (.decl g :: rest ++ more))).isMarked known
      have first := Decl.scan_globalCode env legal.1.1 (balanced _ List.mem_cons_self) small
        (writable _ (Nat.le_add_right _ _))
      have rest := ih (h.addDecl g) (same ▸ known) legal.2 later fun k le => writable k (by omega)
      rw [Item.startCode, Image.scan_append, first, Option.bind_some, rest]

theorem Item.isBranch_startCode {d : Draft} {items : List Item} (balanced : ∀ i ∈ items, i.isBalanced p) :
    ∀ i ∈ Item.startCode d items, i.opcode.isBranch = false := by
  induction items generalizing d with
  | nil => exact List.forall_mem_nil _
  | cons i rest ih =>
    obtain ⟨own, later⟩ := List.forall_mem_cons.1 balanced
    cases i with
    | fn f => exact ih later
    | decl g => exact List.forall_mem_append.2 ⟨Decl.isBranch_globalCode own, ih later⟩

end Start

/-! ### Checked programs -/

section Checked

variable {p : Program} {w : Nat → Bool}

/-- The code of the function that a program starts in: initial values, and the call of `main`. -/
theorem Program.Legal.exists_start (legal : p.Legal) (short : p.tokens < 2 ^ 32) {k : Nat}
    (main : p.draft.main = some k) :
    ∃ (F G : Function) (f : FnItem) (n : Nat), p.image.functions[0]? = some F ∧
      p.image.functions[n]? = some G ∧ n ≠ 0 ∧ n < 2 ^ 32 ∧ G.retSlots.toNat = f.ret.returnSlots ∧
      F.body = Item.startCode .initial p.items ++ [.withOperand .stackalloc (Int64.ofNat f.ret.returnSlots)] ++
        [.withOperand .call (Int64.ofNat n)] := by
  obtain ⟨before, f, after, items, -, -, code⟩ := legal.mainCall_eq main
  have declared := legal.hasFunction_declared items
  have few := legal.number_le items
  have sizes := shape_le items
  obtain ⟨ret, -⟩ := declared.slots (by omega) (by omega)
  refine ⟨_, _, f, _, (legal.hasFunction_start main).place, declared.place, Nat.succ_ne_zero _, by omega, ret, ?_⟩
  change Item.startCode .initial p.items ++ (p.items.foldl Draft.add .initial).mainCall = _
  rw [code, List.append_assoc]
  rfl

/-- No addresses are left between two initial values. -/
theorem Program.Legal.scan_start (legal : p.Legal) (short : p.tokens < 2 ^ 32) (balanced : p.isBalanced)
    {front rest : List Item} (items : p.items = front ++ rest) :
    p.image.scan (fun _ => true) [] (Item.startCode .initial front) = some [] := by
  have parts := legal.1
  rw [items] at parts
  refine Item.scan_startCode (p := p) Draft.enrolls_initial rest ?_ parts.append.1 (fun i mem => ?_) fun _ _ => rfl
  · rw [List.nil_append, ← items]
    exact legal.isMarked short fun _ => rfl
  · exact List.all_eq_true.1 balanced i (by rw [items]; exact List.mem_append_left _ mem)

/-- The marks of a function that the program declares can be followed. -/
theorem Program.Legal.exists_after (legal : p.Legal) (balanced : p.isBalanced)
    (known : (rosterOf p.items).IsMarked p p.image w) {j pc : Nat} {i : Instr} {P : List Mark}
    (hi : p.image.instr? (j + 1) pc = some i) (marks : p.image.marks? (j + 1) pc = some P) :
    ∃ Q, i.after? p.image w P = some Q := by
  obtain ⟨F, found, at_pc⟩ := Option.bind_eq_some_iff.1 hi
  obtain ⟨before, f, after, items, rfl, rfl⟩ := legal.exists_of_functions found
  obtain ⟨N, -, scan⟩ := (legal.tracks_function balanced known items).scan isCalm_nil
  obtain ⟨P', Q, marks', after⟩ := Image.exists_marks [] [] found
    (List.append_nil _).symm rfl scan at_pc
  rw [List.length_nil, Nat.zero_add, marks, Option.some.injEq] at marks'
  exact ⟨Q, marks' ▸ after⟩

/-- The marks of the function that a program starts in can be followed up to its last instruction, which calls
`main`. If that has parameters, there are no values for them. -/
theorem Program.Legal.exists_after_start (legal : p.Legal) (short : p.tokens < 2 ^ 32) (balanced : p.isBalanced)
    {k : Nat} (main : p.draft.main = some k) {pc : Nat} {i : Instr} {P : List Mark}
    (hi : p.image.instr? 0 pc = some i) (marks : p.image.marks? 0 pc = some P) :
    (∃ Q, i.after? p.image (fun _ => true) P = some Q) ∨
      i.opcode = .call ∧ ∀ g, i.index?.bind (p.image.functions[·]?) = some g → P.length < g.taken := by
  obtain ⟨F, G, f, n, found, function, ne, small, ret, body⟩ := legal.exists_start short main
  have at_pc : F.body[pc]? = some i := by
    rwa [Image.instr?, found, Option.bind_some] at hi
  have slots := f.ret.returnSlots_le
  have scan : p.image.scan (fun _ => true) [] (Item.startCode .initial p.items ++
      [.withOperand .stackalloc (Int64.ofNat f.ret.returnSlots)])
        = some (List.replicate f.ret.returnSlots .value) := by
    have init := legal.scan_start short balanced (List.append_nil p.items).symm
    simp [init, after?_stackalloc (show f.ret.returnSlots < 2 ^ 63 by omega)]
  rw [body] at at_pc
  rcases Draft.getElem?_concat_eq_some at_pc with inside | ⟨rfl, rfl⟩
  · obtain ⟨P', Q, marks', after⟩ := Image.exists_marks [] _ found body rfl scan inside
    rw [List.length_nil, Nat.zero_add, marks, Option.some.injEq] at marks'
    exact .inl ⟨Q, marks' ▸ after⟩
  · rw [Image.marks?, found, Option.bind_some, body, List.take_left, scan, Option.some.injEq] at marks
    subst marks
    have index : (Instr.withOperand .call (Int64.ofNat n)).index? = some n :=
      Action.index?_ofNat (show n < 2 ^ 63 by omega)
    by_cases none : G.paramSlots.toNat = 0
    · have after := Function.after?_eq (M := []) none ret fun _ => isCalm_nil
      rw [List.replicate_zero, List.nil_append, List.append_nil] at after
      refine .inl ⟨List.replicate f.ret.returnSlots .value, ?_⟩
      change (p.image.callee? (.withOperand .call (Int64.ofNat n))).bind _ = _
      rw [Image.callee?, index, Option.bind_some, if_neg ne, function, Option.bind_some, after]
    · refine .inr ⟨rfl, fun g called => ?_⟩
      rw [index, Option.bind_some, function, Option.some.injEq] at called
      subst called
      rw [List.length_replicate, Function.taken, ret]
      omega

/-- The image of a balanced program is checked. -/
theorem Program.Legal.isChecked (legal : p.Legal) (short : p.tokens < 2 ^ 32) (balanced : p.isBalanced) {k : Nat}
    (main : p.draft.main = some k) : p.image.IsChecked := by
  have known : (rosterOf p.items).IsMarked p p.image (fun _ => true) := legal.isMarked short fun _ => rfl
  have straight {pc : Nat} {i : Instr} (hi : p.image.instr? 0 pc = some i) : i.opcode.isBranch = false := by
    obtain ⟨F, G, f, n, start, -, -, -, -, body⟩ := legal.exists_start short main
    have mem : i ∈ F.body := by
      rw [Image.instr?, start, Option.bind_some] at hi
      exact List.mem_of_getElem? hi
    rw [body, List.append_assoc] at mem
    refine List.forall_mem_append.2 ⟨Item.isBranch_startCode (List.all_eq_true.1 balanced), ?_⟩ i mem
    exact List.forall_mem_cons.2 ⟨rfl, List.forall_mem_singleton.2 rfl⟩
  have own {j pc n : Nat} {i : Instr} {F : Function} (hi : p.image.instr? j pc = some i)
      (found : p.image.functions[j]? = some F) (index : i.index? = some n) :
      (i.opcode = .loca → n ≤ F.localSlots.toNat) ∧ (i.opcode = .arga → n ≤ F.taken) := by
    rw [Image.instr?, found, Option.bind_some] at hi
    obtain ⟨v, operand, at_n⟩ := Option.bind_eq_some_iff.1 index
    rw [index?_eq_some] at at_n
    have fits := (legal.contract main (by omega) F (List.mem_of_getElem? found)).1
    have inRange := fits.inRange short i (List.mem_of_getElem? hi) v operand
    refine ⟨fun op => ?_, fun op => ?_⟩ <;> rw [op] at inRange
    · have := (inRange _ rfl).2
      omega
    · have := (inRange _ rfl).2
      rw [Function.taken]
      omega
  refine ⟨?_, ?_, fun hi op found index => (own hi found index).1 op,
    fun hi op found index => (own hi found index).2 op, straight⟩
  · intro j pc i P hi marks
    cases j with
    | succ j => exact .inl (legal.exists_after balanced known hi marks)
    | zero => exact (legal.exists_after_start short balanced main hi marks).imp_right fun few => ⟨rfl, few⟩
  · intro j pc i v target hi branch operand landed
    cases j with
    | zero =>
      rw [straight hi] at branch
      cases branch
    | succ j =>
      obtain ⟨F, found, -⟩ := Option.bind_eq_some_iff.1 hi
      obtain ⟨before, f, after, items, rfl, rfl⟩ := legal.exists_of_functions found
      have length := f.length_body_le ((before.foldl Draft.add .initial).start f)
      have own := tokens_part_le items
      exact (legal.tracks_function balanced known items).jumps found (Nat.lt_of_le_of_lt length (by omega)) hi
        branch operand landed

end Checked

end CZero
