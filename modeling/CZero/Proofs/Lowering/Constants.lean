import CZero.Proofs.Lowering.Checked
import CZero.Proofs.Preservation.Source

/-!
# Constants keep their values

The initial value of a global is stored in the function that a program starts in. No name of a constant can be
assigned to, so in a balanced program this is the only store that goes to the constant's global. Main statement
(`compile_keepsConstants`): from that store on the global keeps its value, whatever the program reads and however
many steps it is allowed.

    const c: int = getint();     globa 0, stackalloc 1, callname getint, store64
    let g: int = c;              globa 1, globa 0, load64, store64

A program that is not balanced can leave a value of its own where a store takes its address from
(`compile_overwritesConstants`).
-/

namespace CZero

open State

/-! ### Stores of the first function -/

/-- A place of the function that a program starts in is the last one that stores in a global. -/
structure Image.IsLastStore (m : Image) (place slot : Nat) : Prop where
  instr : m.instr? 0 place = some (.plain .store64)
  marks : m.marks? 0 place = some [.value, .global slot]
  bound : slot < m.globals.length
  only : ∀ {j pc i P}, m.instr? j pc = some i → i.opcode = .store64 →
    m.marks? j pc = some (.value :: .global slot :: P) → j = 0 ∧ pc ≤ place

/-- Once a store of the function that a program starts in has executed, the global keeps the value that was
stored: in all states that a run comes to, and in the state that it ends with. Under every limit that can be
exceeded it ends. -/
def Image.KeepsStored (m : Image) (place slot : Nat) : Prop :=
  ∀ console limit, Roomy m limit (.start m console) → ∀ k s, k < limit → Reach m k (.start m console) s →
    ∀ f callers, s.frames = f :: callers → f.function = 0 → f.pc = place →
    ∃ v, s.stack.back? = some v ∧
      (∀ n t, k + n < limit → Reach m (n + 1) s t → t.globals[slot]? = some v) ∧
      ∀ vm : Machine, vm.state.console = console → vm.stepLimit.toNat = limit →
        (vm.stepLimit < Machine.noLimit → (vm.run m).isSome) ∧
        ∀ r, vm.run m = some r → r.2.global? slot = some v

section Machine

variable {m : Image} {s t : State} {place slot : Nat}

/-- No state that a run comes to has more or fewer globals. -/
theorem State.Changes.size_eq (h : s.Changes m t) : t.globals.size = s.globals.size := by
  rcases h with eq | ⟨n, v, -, eq⟩
  · rw [eq]
  · rw [eq, Array.size_setIfInBounds]

/-- A store that the marks name succeeds. -/
theorem State.Sound.exists_store {f : Frame} {callers : List Frame} {P : List Mark} (sound : s.Sound m)
    (frames : s.frames = f :: callers) (marks : m.marks? f.function f.pc = some (.value :: .global slot :: P))
    (bound : slot < s.globals.size) :
    ∃ v t, s.stack.back? = some v ∧ t.globals[slot]? = some v ∧
      t.frames = { f with pc := f.pc + 1 } :: callers ∧
      Action.perform m (.plain .store64) { s with frames := { f with pc := f.pc + 1 } :: callers } = .ok () t := by
  unfold Sound at sound
  rw [frames] at sound
  obtain ⟨P', low, high, marks', runs⟩ := sound
  rw [marks, Option.some.injEq] at marks'
  subst marks'
  obtain ⟨v, _, -, marks, rfl⟩ := List.forall₂_cons_left_iff.1 runs.fits.marks
  obtain ⟨a, rest, ⟨lt, rfl⟩, -, rfl⟩ := List.forall₂_cons_left_iff.1 marks
  have stack : s.stack = (low ++ rest.reverse ++ [globalBase + Int64.ofNat slot] ++ [v]).toArray := by
    rw [← s.stack.toArray_toList, runs.stack]
    simp
  refine ⟨v, { s with
    stack := (low ++ rest.reverse).toArray, globals := s.globals.set slot v,
    frames := { f with pc := f.pc + 1 } :: callers }, by simp [stack], Array.getElem?_set_self bound, rfl, ?_⟩
  have first := Action.pop_eq (s := { s with frames := { f with pc := f.pc + 1 } :: callers }) stack
  have store := Action.store_global (s := { s with
    stack := (low ++ rest.reverse).toArray, frames := { f with pc := f.pc + 1 } :: callers }) bound lt v
  exact (Action.bind_of_ok first _).trans ((Action.bind_of_ok (Action.pop_eq rfl) _).trans store)

theorem Image.IsLastStore.keepsStored (last : m.IsLastStore place slot) (checked : m.IsChecked)
    (start : ∀ console, (State.start m console).Sound m) : m.KeepsStored place slot := by
  intro console limit roomy k s lt reach f callers frames zero pc
  obtain ⟨sound, size⟩ : s.Sound m ∧ s.globals.size = m.globals.length := by
    refine reach.preserves (I := fun u => u.Sound m ∧ u.globals.size = m.globals.length) ?_
      (fun i u le => roomy i u (by omega)) ⟨start console, Array.size_replicate⟩
    rintro s t ⟨sound, size⟩ move room
    obtain ⟨sound', changes⟩ := sound.move checked move room
    exact ⟨sound', changes.size_eq.trans size⟩
  have hi : m.instr? f.function f.pc = some (.plain .store64) := by
    rw [zero, pc, last.instr]
  have marks : m.marks? f.function f.pc = some [.value, .global slot] := by
    rw [zero, pc, last.marks]
  obtain ⟨v, t, top, value, next, stored⟩ := sound.exists_store frames marks (size ▸ last.bound)
  have one : Reach m 1 s t := .exec frames hi stored .refl
  have later : Roomy m (limit - (k + 1)) t := by
    refine Roomy.reach (n := k + 1) ?_ (reach.trans one)
    rwa [Nat.add_sub_cancel' lt]
  -- the store has executed: all that runs from here on has come past it
  have kept : ∀ n u, k + n < limit → Reach m n t u → u.globals[slot]? = some v := by
    intro n u le reach
    have sound' := (sound.move checked (.exec frames hi stored) later.size_le).1
    refine Past.reach checked last.only reach (fun i u le => later i u (by omega)) sound' ?_ value
    have root : callers = [] := by
      unfold Sound at sound
      rw [frames] at sound
      obtain ⟨_, _, _, -, runs⟩ := sound
      exact runs.root zero
    unfold Past
    rw [next, root]
    exact List.forall_mem_singleton.2 fun _ => by simp [pc]
  refine ⟨v, top, fun n u le reach => ?_, fun vm console limit => ?_⟩
  · cases reach with
    | exec frames' hi' stored' rest =>
      rw [frames, List.cons.injEq] at frames'
      obtain ⟨rfl, rfl⟩ := frames'
      rw [hi, Option.some.injEq] at hi'
      subst hi'
      rw [stored, EStateM.Result.ok.injEq] at stored'
      obtain ⟨-, rfl⟩ := stored'
      exact kept n u le rest
    | leave frames' none _ =>
      rw [frames, List.cons.injEq] at frames'
      obtain ⟨rfl, rfl⟩ := frames'
      rw [hi] at none
      cases none
  · subst console limit
    obtain ⟨F, found, -⟩ := Option.bind_eq_some_iff.1 last.instr
    have nonempty := Image.not_isEmpty found
    -- from here on the run ends by itself, or has one more instruction to execute than it is allowed
    obtain ⟨n, o, u, le, halts⟩ | ⟨i, u, next⟩ := halts_or_dispatched? m t (vm.stepLimit.toNat - (k + 1))
    · obtain ⟨n', w, le', reach', globals⟩ := halts.exists_reach
      have finishes := vm.finishes_of_halts nonempty ((reach.trans one).halts halts)
      have run : vm.run m = _ := finishes.run_eq vm.stepLimit (by omega)
      rw [run]
      refine ⟨fun _ => rfl, ?_⟩
      rintro r ⟨⟩
      change u.globals[slot]? = some v
      rw [globals]
      exact kept n' w (by omega) reach'
    · obtain ⟨w, f', callers', reach', -, -, rfl⟩ := reach_of_dispatched? next
      have later := (reach.trans one).dispatched?_add next
      rw [Nat.add_sub_cancel' lt] at later
      have run : vm.run m = _ := (vm.dispatches_of_dispatched? nonempty later).run_eq_ite
      rw [run]
      refine ⟨fun below => by rw [if_pos below, Option.isSome_some], fun r eq => ?_⟩
      rw [Option.ite_none_right_eq_some] at eq
      cases eq.2
      exact kept _ w (by omega) reach'

end Machine

/-! ### Initial values -/

/-- The number of a global that is declared behind some parts of a program. -/
def Decl.slot (before : List Item) (g : Decl) : Nat :=
  (rosterOf before).globals.length + g.texts.length

/-- The place of the instruction that stores its initial value. -/
def Decl.storePlace (before : List Item) (g : Decl) : Nat :=
  (Item.startCode .initial (before ++ [.decl g])).length - 1

theorem Item.startCode_append (d : Draft) (items more : List Item) :
    Item.startCode d (items ++ more) = Item.startCode d items ++ Item.startCode (items.foldl Draft.add d) more := by
  induction items generalizing d with
  | nil => rfl
  | cons i rest ih =>
    cases i with
    | fn f => exact ih (d.addFn f)
    | decl g =>
      rw [List.cons_append, Item.startCode, ih, Item.startCode, List.append_assoc]
      rfl

section Program

variable {p : Program} {before after : List Item} {g : Decl}

theorem Program.getElem?_slot (items : p.items = before ++ .decl g :: after) :
    (rosterOf p.items).globals[g.slot before]? = some (.scalar g.name.name g.isConst) := by
  rw [items, globals_rosterOf_append, Decl.slot]
  simp [Item.registrations]

/-- No function runs at the start but the first, and it has nothing on the stack. -/
theorem Program.Legal.sound_start (legal : p.Legal) {k : Nat} (main : p.draft.main = some k) (console : Console) :
    (State.start p.image console).Sound p.image := by
  have start := legal.hasFunction_start main
  obtain ⟨ret, params, locals⟩ := start.slots (by decide) (by decide)
  refine ⟨[], [], [], ?_, rfl, ⟨⟨_, start.place, ret.symm, params.symm, ?_⟩, .nil, fun _ => rfl⟩, fun _ => rfl,
    trivial⟩
  · change p.image.marks? 0 0 = some []
    rw [Image.marks?, start.place]
    rfl
  · change 0 + 0 + 0 + _ ≤ 0
    rw [locals]
    rfl

/-- The store of an initial value comes behind the address of the global and the value. -/
theorem Program.Legal.exists_initial (legal : p.Legal) (short : p.tokens < 2 ^ 32) (balanced : p.isBalanced)
    (items : p.items = before ++ .decl g :: after) {e : Expr} (init : g.init = some e) :
    ∃ lead, Item.startCode .initial (before ++ [.decl g]) = lead ++ [.plain .store64] ∧
      p.image.scan (fun _ => true) [] lead = some [.value, .global (g.slot before)] := by
  have parts := legal.1
  rw [items] at parts
  obtain ⟨first, own, -⟩ := parts.append
  have enrolls := Draft.enrolls_foldl first
  have known : (rosterOf p.items).IsMarked p p.image (fun _ => true) := legal.isMarked short fun _ => rfl
  obtain ⟨ty, typed, -⟩ := own.1.2.2 e init
  have value : e.isValue p := by
    have own : g.isBalanced p := List.all_eq_true.1 balanced (.decl g) (by rw [items]; simp)
    rwa [Decl.isBalanced, init] at own
  have slot : g.slot before = (before.foldl Draft.add .initial).data.length + g.texts.length := by
    rw [Decl.slot, enrolls.length_data]
  have small : g.slot before < 2 ^ 62 :=
    Nat.lt_of_lt_of_le (List.getElem?_eq_some_iff.1 (getElem?_slot items)).1 known.small
  have start := legal.scan_start short balanced items
  have env := enrolls.covers.append (.decl g :: after)
  rw [← items] at env
  have code := e.scan_initial (n := (before.foldl Draft.add .initial).data.length)
    ((Draft.agrees_env env).isMarked known) (by rw [typed]; rfl) value small
  refine ⟨Item.startCode .initial before ++ _, ?_, by rw [Image.scan_append, start, Option.bind_some, code]⟩
  rw [Item.startCode_append, Item.startCode, Item.startCode, List.append_nil, Decl.globalCode, init, ← slot,
    List.append_assoc]

/-- Behind the store of an initial value marks can be followed even if no store goes to its global any more. -/
theorem Program.Legal.exists_after_initial (legal : p.Legal) (short : p.tokens < 2 ^ 32) (balanced : p.isBalanced)
    {k : Nat} (main : p.draft.main = some k) (items : p.items = before ++ .decl g :: after)
    (known : (rosterOf p.items).IsMarked p p.image (fun n => n ≠ g.slot before)) {pc : Nat} {i : Instr}
    {P : List Mark} (hi : p.image.instr? 0 pc = some i) (op : i.opcode = .store64)
    (marks : p.image.marks? 0 pc = some P) (le : (Item.startCode .initial (before ++ [.decl g])).length ≤ pc) :
    ∃ Q, i.after? p.image (fun n => n ≠ g.slot before) P = some Q := by
  obtain ⟨F, G, f, n, found, -, -, -, -, body⟩ := legal.exists_start short main
  obtain ⟨k, rfl⟩ := Nat.exists_eq_add_of_le le
  have split : p.items = before ++ [.decl g] ++ after := by rw [items]; simp
  have parts := legal.1
  rw [split] at parts
  obtain ⟨first, rest⟩ := parts.append
  have enrolls := Draft.enrolls_foldl first
  rw [split, Item.startCode_append, List.append_assoc (_ ++ _)] at body
  have start := legal.scan_start short balanced split
  -- globals that are declared later have greater numbers
  have scan : p.image.scan (fun n => n ≠ g.slot before) []
      (Item.startCode ((before ++ [Item.decl g]).foldl Draft.add .initial) after) = some [] := by
    refine Item.scan_startCode (p := p) enrolls [] ?_ rest (fun i mem => ?_) fun n le => ?_
    · rwa [List.append_nil, ← split]
    · exact List.all_eq_true.1 balanced i (by rw [split]; exact List.mem_append_right _ mem)
    · rw [enrolls.length_data, globals_rosterOf_append] at le
      simp [Item.registrations] at le
      rw [decide_eq_true_eq, Decl.slot]
      omega
  have at_k : F.body[(Item.startCode .initial (before ++ [.decl g])).length + k]? = some i := by
    rwa [Image.instr?, found, Option.bind_some] at hi
  rw [body, List.append_assoc, List.getElem?_append_right (Nat.le_add_right _ _), Nat.add_sub_cancel_left,
    ← List.append_assoc] at at_k
  rcases Draft.getElem?_concat_eq_some at_k with other | ⟨-, rfl⟩
  · rcases Draft.getElem?_concat_eq_some other with inside | ⟨-, rfl⟩
    · obtain ⟨P', Q, marks', after⟩ := Image.exists_marks _ _ found body start scan inside
      rw [marks, Option.some.injEq] at marks'
      exact ⟨Q, marks' ▸ after⟩
    · cases op
  · cases op

/-- Only its initial value is stored in a constant. -/
theorem Program.Legal.isLastStore (legal : p.Legal) (short : p.tokens < 2 ^ 32) (balanced : p.isBalanced) {k : Nat}
    (main : p.draft.main = some k) (items : p.items = before ++ .decl g :: after) (const : g.isConst) {e : Expr}
    (init : g.init = some e) : p.image.IsLastStore (g.storePlace before) (g.slot before) := by
  have place := getElem?_slot items
  rw [const] at place
  have known : (rosterOf p.items).IsMarked p p.image (fun n => n ≠ g.slot before) := by
    refine legal.isMarked short fun {i name} at_i => ?_
    rw [decide_eq_true_eq]
    rintro rfl
    rw [place] at at_i
    cases at_i
  have refused : ∀ {i : Instr} {P Q : List Mark}, i.opcode = .store64 →
      i.after? p.image (fun n => n ≠ g.slot before) (.value :: .global (g.slot before) :: P) ≠ some Q := by
    intro i P Q op after
    simp [Instr.after?, op, Mark.store] at after
  obtain ⟨F, G, f, n, found, -, -, -, -, body⟩ := legal.exists_start short main
  obtain ⟨lead, code, scan⟩ := legal.exists_initial short balanced items init
  have front : g.storePlace before = lead.length := by simp [Decl.storePlace, code]
  have split : p.items = before ++ [.decl g] ++ after := by rw [items]; simp
  rw [split, Item.startCode_append, code] at body
  refine ⟨?_, ?_, ?_, ?_⟩
  · rw [Image.instr?, found, Option.bind_some, body, front]
    simp
  · rw [Image.marks?, found, Option.bind_some, body, front]
    simp only [List.append_assoc, List.take_left, scan]
  · have lt := (List.getElem?_eq_some_iff.1 place).1
    rw [← legal.enrolls.length_data] at lt
    rw [Program.image, List.length_append]
    omega
  · intro j pc i P hi op marks
    cases j with
    | succ j =>
      obtain ⟨Q, after⟩ := legal.exists_after balanced known hi marks
      exact absurd after (refused op)
    | zero =>
      refine ⟨rfl, Nat.le_of_not_lt fun lt => ?_⟩
      have behind : (Item.startCode .initial (before ++ [.decl g])).length ≤ pc := by
        rw [code, List.length_append, ← front]
        exact lt
      obtain ⟨Q, after⟩ := legal.exists_after_initial short balanced main items known hi op marks behind
      exact refused op after

end Program

/-- In a balanced program a constant keeps its value from the store of its initial value on. -/
theorem compile_keepsConstants {source : String} {m : Image} (compiles : compile source = .ok m)
    (balanced : (Program.ofSource source).isBalanced) (short : source.length < 2 ^ 32) {before after : List Item}
    {g : Decl} {e : Expr} (items : (Program.ofSource source).items = before ++ .decl g :: after)
    (const : g.isConst) (init : g.init = some e) :
    (rosterOf (Program.ofSource source).items).globals[g.slot before]? = some (.scalar g.name.name true) ∧
    m.globals[g.slot before]? = some (.scalar true) ∧
    m.instr? 0 (g.storePlace before) = some (.plain .store64) ∧
    (∀ console limit, limit * (source.length + 1) ≤ 2 ^ 40 → Roomy m limit (.start m console)) ∧
    m.KeepsStored (g.storePlace before) (g.slot before) := by
  obtain ⟨legal, image⟩ := compile_spec compiles
  obtain ⟨-, rfl, k, main⟩ := Program.legal_of_compile compiles
  have tokens := Grammar.tokens_le_length ((legal.isTreeOf _).2 rfl)
  have small : (Program.ofSource source).tokens < 2 ^ 32 := by omega
  have last := legal.isLastStore small balanced main items const init
  have place := Program.getElem?_slot items
  rw [const] at place
  refine ⟨place, ?_, last.instr, fun console limit few => ?_, last.keepsStored
    (legal.isChecked small balanced main) (legal.sound_start main)⟩
  · rw [(legal.numbers main).globals]
    exact getElem?_append_of_some (by rw [List.getElem?_map, place]; rfl) _
  · refine (image.isLight legal).roomy ?_
    have := Nat.mul_le_mul_left limit (Nat.add_le_add_right tokens 1)
    change 0 + limit * _ ≤ _
    omega

/-- The state after some steps, if no function has come to the end of its code before. -/
def State.after? (m : Image) : Nat → State → Option State
  | 0, s => some s
  | n + 1, s =>
    match s.frames with
    | [] => none
    | f :: callers =>
      match m.instr? f.function f.pc with
      | none => none
      | some i =>
        match Action.perform m i { s with frames := { f with pc := f.pc + 1 } :: callers } with
        | .ok () t => t.after? m n
        | .error _ _ => none

theorem State.reach_of_after? {m : Image} {n : Nat} {s t : State} (h : s.after? m n = some t) : Reach m n s t := by
  induction n generalizing s with
  | zero =>
    cases h
    exact .refl
  | succ n ih =>
    rw [State.after?] at h
    split at h
    · cases h
    · next frames =>
      split at h
      · cases h
      · next hi =>
        split at h
        · next ht => exact .exec frames hi ht (ih h)
        · cases h

/-- A constant that is read, behind a variable that is assigned to in a loop and by a function. -/
def growing : String :=
  "let g:int=1;const c:int=getint()+g;fn f(n:int)->int\x7blet y:int=n;y=y+c;return y;\x7d" ++
  "fn main()->void\x7bwhile g<9\x7bg=f(g);\x7dputint(g);\x7d"

/-- Nine instructions into a run of `m` on the input 3, 4 is about to be stored in the second item of `p`, a constant. -/
def Program.storesSecond (p : Program) (m : Image) : Bool :=
  match p.items, (State.start m (.ofInput [3])).after? m 9 with
  | .decl first :: .decl g :: _, some s =>
    match g.init, s.frames with
    | some _, [f] => decide (p.isBalanced ∧ g.isConst ∧ f.function = 0 ∧ f.pc = g.storePlace [.decl first] ∧
        g.slot [.decl first] = 1 ∧ s.stack.back? = some 4)
    | _, _ => false
  | _, _ => false

set_option maxRecDepth 100000 in
/-- The constant is 4 when it is stored, so it is 4 when the run has ended. -/
theorem compile_keepsConstants_growing : ∃ m first g e after s f,
    compile growing = .ok m ∧ (Program.ofSource growing).isBalanced ∧ growing.length < 2 ^ 32 ∧
      (Program.ofSource growing).items = [.decl first] ++ .decl g :: after ∧ g.isConst ∧ g.init = some e ∧
      Reach m 9 (.start m (.ofInput [3])) s ∧ s.frames = [f] ∧ f.function = 0 ∧ f.pc = g.storePlace [.decl first] ∧
      ∀ vm : Machine, vm.state.console = .ofInput [3] → vm.stepLimit = Machine.defaultStepLimit →
        (vm.run m).map (·.2.global? 1) = some (some 4) := by
  have eval : (compile growing).toOption.any (Program.ofSource growing).storesSecond = true := by
    decide +kernel
  cases compiles : compile growing with
  | error d =>
    rw [compiles] at eval
    cases eval
  | ok m =>
    rw [compiles] at eval
    dsimp only [Except.toOption, Option.any, Program.storesSecond] at eval
    split at eval
    case h_2 => cases eval
    case h_1 first g after s items reached =>
      split at eval
      case h_2 => cases eval
      case h_1 e f init frames =>
        obtain ⟨balanced, const, zero, place, slot, top⟩ := of_decide_eq_true eval
        have length : growing.length = 125 := by decide +kernel
        have short : growing.length < 2 ^ 32 := by omega
        have reach := State.reach_of_after? reached
        have items : (Program.ofSource growing).items = [.decl first] ++ .decl g :: after := items
        obtain ⟨-, -, -, roomy, keeps⟩ := compile_keepsConstants compiles balanced short items const init
        refine ⟨m, first, g, e, after, s, f, rfl, balanced, short, items, const, init, reach, frames, zero, place,
          fun vm console limit => ?_⟩
        have few : Machine.defaultStepLimit.toNat * (growing.length + 1) ≤ 2 ^ 40 := by
          rw [length]
          decide
        obtain ⟨v, stored, -, ended⟩ := keeps _ _ (roomy _ _ few) 9 s (by decide) reach f [] frames zero place
        rw [top, Option.some.injEq] at stored
        obtain ⟨ends, value⟩ := ended vm console (congrArg UInt64.toNat limit)
        obtain ⟨r, run⟩ := Option.isSome_iff_exists.1 (ends (limit ▸ by decide))
        rw [run, stored, ← slot, Option.map_some, value r run]

/-! ### Programs that are not balanced -/

/-- Whether all constants are integers with an initial value. -/
def Program.hasIntConstants (p : Program) : Bool :=
  p.items.all fun
    | .decl g => !g.isConst || decide (g.type.ty = .int) && g.init.any (·.isValue p)
    | .fn _ => true

/-- A program that reads some numbers. Its constant is stored at a place of the first function. -/
structure Overwriting where
  source : String
  input : List Int64
  place : UInt64
  /-- The value that is stored. -/
  stored : Int64
  /-- The value at the end. -/
  left : Int64

/-- The program compiles and is not balanced. Its constants are integers, and the value of the first one is stored
but is another one at the end. -/
def Overwriting.Happens (x : Overwriting) : Prop :=
  ∃ m, compile x.source = .ok m ∧
    (Program.ofSource x.source).hasIntConstants ∧ (Program.ofSource x.source).isBalanced = false ∧
    m.globals[0]? = some (.scalar true) ∧ m.instr? 0 x.place.toNat = some (.plain .store64) ∧
    (((Machine.ofConsole (.ofInput x.input)).withStepLimit (x.place + 1)).run m).map (·.2.global? 0) =
      some (some x.stored) ∧
    ((Machine.ofConsole (.ofInput x.input)).run m).map (·.2.global? 0) = some (some x.left) ∧ x.stored ≠ x.left

/-- One program for each way of not being balanced: a number with a fraction as a value, a comparison outside of
conditions, an argument too few, an argument too many, an operand without a result, and a call of the function
that the program starts in. -/
def overwriting : List Overwriting :=
  [⟨"const c:int=5;fn main()->void\x7blet y:int;1099511627776;y=1.5;\x7d", [], 2, 5, 0⟩,
   ⟨"const c:int=5;fn main()->void\x7blet y:int;1099511627776;1<2;y=7;\x7d", [], 2, 5, 7⟩,
   ⟨"const c:int=5;fn g(a:int)->int\x7breturn 7;\x7dfn main()->void\x7blet y:int;1099511627776;y=g();\x7d",
    [], 2, 5, 7⟩,
   ⟨"const c:int=5;fn g(a:int)->int\x7breturn 1099511627776;\x7dfn h()->int\x7blet y:int;y=g(0,0);return 9;\x7d" ++
      "const b:int=h();fn main()->void\x7b\x7d", [], 2, 5, 9⟩,
   ⟨"const c:int=5;fn v()->void\x7b\x7dfn main()->void\x7blet y:int;1099511627776;y=3+v();\x7d", [], 2, 5, 3⟩,
   ⟨"const c:int=getint();fn main()->void\x7bif c==1\x7b_start();\x7d\x7d", [1, 2], 3, 1, 2⟩]

set_option maxRecDepth 100000 in
/-- Constants do not keep their values in programs that are not balanced. -/
theorem compile_overwritesConstants : overwriting.Forall Overwriting.Happens := by
  have eval : (overwriting.all fun x =>
      match compile x.source with
      | .ok m => decide ((Program.ofSource x.source).hasIntConstants ∧
          (Program.ofSource x.source).isBalanced = false ∧
          m.globals[0]? = some (.scalar true) ∧ m.instr? 0 x.place.toNat = some (.plain .store64) ∧
          x.place + 1 < Machine.noLimit ∧
          (((Machine.ofConsole (.ofInput x.input)).withStepLimit (x.place + 1)).runFor m (x.place + 1).toNat).2.global? 0
            = some x.stored ∧
          ((Machine.ofConsole (.ofInput x.input)).runFor m 1000000).2.global? 0 = some x.left ∧ x.stored ≠ x.left)
      | .error _ => false) = true := by
    decide +kernel
  refine List.forall_iff_forall_mem.2 fun x mem => ?_
  have own := List.all_eq_true.1 eval x mem
  split at own
  · next m compiles =>
    obtain ⟨constants, unbalanced, first, place, below, stored, left, ne⟩ := of_decide_eq_true own
    refine ⟨m, compiles, constants, unbalanced, first, place, ?_, ?_, ne⟩
    · rw [Machine.run_eq_runFor below, Option.map_some, ← stored]
      rfl
    · rw [Machine.run_ofConsole, Option.map_some, left]
  · cases own

end CZero
