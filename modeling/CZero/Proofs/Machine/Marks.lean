import CZero.Proofs.Machine.Values
import Mathlib.Data.List.Forall2

/-!
# Where code stores

A store takes its address from the stack, so what it writes to depends on all that was pushed before. This
module tells from the code alone where its stores go. Each value that a function has pushed gets a mark: it
is the address of a global, an address in the function's own part of the stack, or just a value. Marks follow
the code from left to right, and nothing is known behind a jump.

    globa 3         [global 3]
    push 1          [global 3, value]
    stackalloc 1    [global 3, value, value]
    call f          [global 3, value, value]
    addi            [global 3, value]
    store64         []

The marks of a function are right about its values (`State.Runs`), and what each kind of instruction does to
them stays right: one lemma for values that are exchanged, overwritten, handed to a function or returned.
-/

namespace CZero

/-! ### Marks -/

/-- What is known of a value. -/
inductive Mark where
  | value
  /-- The address of a place on the stack that belongs to the function. -/
  | own
  /-- The address of a global. -/
  | global (n : Nat)
deriving DecidableEq

/-- There are no addresses. -/
def IsCalm (P : List Mark) : Prop :=
  ∀ x ∈ P, x = .value

instance (P : List Mark) : Decidable (IsCalm P) :=
  inferInstanceAs (Decidable (∀ x ∈ P, x = .value))

/-- The marks behind something that takes `k` values and leaves `n`. -/
def Mark.exchange (k n : Nat) (P : List Mark) : Option (List Mark) :=
  if k ≤ P.length then some (List.replicate n .value ++ P.drop k) else none

/-- The marks behind a store. Only a place on the stack or a global that is writable can be its target, and
no other address may wait, because it could be overwritten. -/
def Mark.store (writable : Nat → Bool) : List Mark → Option (List Mark)
  | .value :: .own :: P => if IsCalm P then some P else none
  | .value :: .global n :: P => if writable n ∧ IsCalm P then some P else none
  | _ => none

/-- The marks behind a library function. One overwrites the topmost value without an own slot for it. -/
def LibraryFn.after? (P : List Mark) : LibraryFn → Option (List Mark)
  | .getint | .getchar => Mark.exchange 1 1 P
  | .putint | .putdouble | .putchar | .putstr => Mark.exchange 1 0 P
  | .putln => Mark.exchange 0 0 P
  | .getdouble => if IsCalm P then some P else none

/-- How many values a function takes. -/
def Function.taken (f : Function) : Nat :=
  f.retSlots.toNat + f.paramSlots.toNat

/-- The marks behind a call. If there is no slot for a result, no address may wait. -/
def Function.after? (P : List Mark) (f : Function) : Option (List Mark) :=
  if f.taken ≤ P.length ∧ IsCalm (P.take f.taken) ∧ (f.retSlots.toNat = 0 → IsCalm P) then
    some (P.drop f.paramSlots.toNat)
  else none

/-- The operand of an instruction as an index. -/
def Instr.index? (i : Instr) : Option Nat :=
  i.operand.bind CZero.index?

/-- The function that an instruction calls. The one that a program starts in is not for calling. -/
def Image.callee? (m : Image) (i : Instr) : Option Function :=
  i.index?.bind fun n => if n = 0 then none else m.functions[n]?

/-- The marks behind an instruction, the topmost first. -/
def Instr.after? (m : Image) (writable : Nat → Bool) (P : List Mark) (i : Instr) : Option (List Mark) :=
  match i.opcode with
  | .push => Mark.exchange 0 1 P
  | .loca | .arga => some (.own :: P)
  | .globa => i.index?.bind fun n => if n < 2 ^ 62 then some (.global n :: P) else none
  | .stackalloc => i.index?.bind fun n => Mark.exchange 0 n P
  | .load64 | .negi | .setlt | .setgt => Mark.exchange 1 1 P
  | .addi | .subi | .multi | .divi | .cmpi => Mark.exchange 2 1 P
  | .store64 => Mark.store writable P
  | .br => some []
  | .brtrue | .brfalse => Mark.exchange 1 0 P
  | .call => (m.callee? i).bind (Function.after? P)
  | .callname => (i.index?.bind (LibraryFn.all[·]?)).bind (LibraryFn.after? P)
  | .ret => some P

/-- The marks behind some code. -/
def Image.scan (m : Image) (writable : Nat → Bool) (P : List Mark) (code : List Instr) : Option (List Mark) :=
  code.foldlM (Instr.after? m writable) P

/-- The marks at a place of a function, wherever it stores. -/
def Image.marks? (m : Image) (k pc : Nat) : Option (List Mark) :=
  m.functions[k]?.bind fun f => m.scan (fun _ => true) [] (f.body.take pc)

/-! ### What marks say -/

/-- The mark is right, in a function whose part of the stack starts at `base`. -/
def Mark.Holds (base : Nat) : Mark → Int64 → Prop
  | .value, _ => True
  | .own, v => ∃ k, base ≤ k ∧ k < 2 ^ 40 ∧ v = Int64.ofNat k
  | .global n, v => n < 2 ^ 62 ∧ v = globalBase + Int64.ofNat n

/-- A function has the values `high` with these marks above its variables. The values are in the order of the
marks, and all below is `low`. There is nothing below the function that a program starts in. -/
structure Frame.Fits (m : Image) (f : Frame) (P : List Mark) (low high : List Int64) : Prop where
  room : ∃ g, m.functions[f.function]? = some g ∧ f.retSlots = g.retSlots.toNat ∧
    f.paramSlots = g.paramSlots.toNat ∧
    f.base + f.retSlots + f.paramSlots + g.localSlots.toNat ≤ low.length
  marks : List.Forall₂ (Mark.Holds f.base) P high
  start : f.function = 0 → low = []

/-- The functions that wait are right about the values that they left below `base`. They will find as many
values more as there are results. -/
def Image.Waits (m : Image) (stack : List Int64) (base results : Nat) : List Frame → Prop
  | [] => True
  | f :: callers =>
    (∃ P low high, m.marks? f.function f.pc = some (List.replicate results .value ++ P) ∧
      (results = 0 → IsCalm P) ∧ stack.take base = low ++ high.reverse ∧ f.Fits m P low high) ∧
    (f.function = 0 → callers = []) ∧ Image.Waits m stack f.base f.retSlots callers

/-- The running function `f` has the values `high` with these marks above `low`, and its callers wait. -/
structure State.Runs (m : Image) (s : State) (f : Frame) (callers : List Frame) (P : List Mark)
    (low high : List Int64) : Prop where
  stack : s.stack.toList = low ++ high.reverse
  fits : f.Fits m P low high
  root : f.function = 0 → callers = []
  waits : m.Waits s.stack.toList f.base f.retSlots callers

/-- All active functions are right about their values. -/
def State.Sound (m : Image) (s : State) : Prop :=
  match s.frames with
  | [] => True
  | f :: callers => ∃ P low high, m.marks? f.function f.pc = some P ∧ s.Runs m f callers P low high

namespace Frame.Fits

variable {m : Image} {f : Frame} {P : List Mark} {low high : List Int64}

theorem base_le (h : f.Fits m P low high) : f.base + f.retSlots ≤ low.length := by
  obtain ⟨g, -, -, -, le⟩ := h.room
  omega

theorem drop (h : f.Fits m P low high) (k : Nat) : f.Fits m (P.drop k) low (high.drop k) :=
  ⟨h.room, List.forall₂_drop k h.marks, h.start⟩

theorem push {x : Mark} {v : Int64} (h : f.Fits m P low high) (holds : x.Holds f.base v) :
    f.Fits m (x :: P) low (v :: high) :=
  ⟨h.room, .cons holds h.marks, h.start⟩

theorem pushAll (h : f.Fits m P low high) (values : List Int64) :
    f.Fits m (List.replicate values.length .value ++ P) low (values ++ high) := by
  induction values with
  | nil => exact h
  | cons v values ih => exact ih.push trivial

/-- Marks that are no addresses hold of all values. -/
theorem of_isCalm (h : f.Fits m P low high) (calm : IsCalm P) (xs : List Int64)
    (length : xs.length = (low ++ high.reverse).length) :
    ∃ low' high', xs = low' ++ high'.reverse ∧ f.Fits m P low' high' := by
  rw [List.length_append, List.length_reverse] at length
  have same : (xs.take low.length).length = low.length := by
    rw [List.length_take]
    omega
  refine ⟨xs.take low.length, (xs.drop low.length).reverse, by simp, ⟨?_, ?_, fun zero => ?_⟩⟩
  · rw [same]
    exact h.room
  · refine List.forall₂_iff_get.2 ⟨?_, fun i lt lt' => ?_⟩
    · rw [List.length_reverse, List.length_drop, h.marks.length_eq]
      omega
    · rw [List.get_eq_getElem, calm _ (List.getElem_mem lt)]
      trivial
  · rw [h.start zero]
    rfl

end Frame.Fits

namespace Image.Waits

variable {m : Image} {fs : List Frame} {xs ys : List Int64} {base results : Nat}

/-- Functions that wait depend only on what is below. -/
theorem congr (h : m.Waits xs base results fs) (same : ys.take base = xs.take base) :
    m.Waits ys base results fs := by
  induction fs generalizing base results with
  | nil => trivial
  | cons f callers ih =>
    obtain ⟨⟨P, low, high, marks, calm, eq, fits⟩, root, rest⟩ := h
    refine ⟨⟨P, low, high, marks, calm, same ▸ eq, fits⟩, root, ih rest ?_⟩
    have le : f.base ≤ base := by
      have length := congrArg List.length eq
      rw [List.length_take, List.length_append] at length
      have := fits.base_le
      omega
    rw [← Nat.min_eq_left le, ← List.take_take, same, List.take_take]

/-- A function without a result can overwrite the topmost value below it: no address waits there. -/
theorem overwrite (h : m.Waits xs base 0 fs) (length : xs.length = base) (v : Int64) :
    m.Waits (xs.set (base - 1) v) base 0 fs := by
  induction fs generalizing base with
  | nil => trivial
  | cons f callers ih =>
    obtain ⟨⟨P, low, high, marks, calm, eq, fits⟩, root, rest⟩ := h
    have whole : ∀ ys : List Int64, ys.length = base → ys.take base = ys := fun ys eq =>
      List.take_of_length_le (Nat.le_of_eq eq)
    rw [whole xs length] at eq
    have count := congrArg List.length eq
    obtain ⟨low', high', eq', fits'⟩ := fits.of_isCalm (calm rfl) (xs.set (base - 1) v)
      (by rw [List.length_set, eq])
    refine ⟨⟨P, low', high', marks, calm, ?_, fits'⟩, root, ?_⟩
    · rw [whole _ (by rw [List.length_set, length]), eq']
    · have le := fits.base_le
      rw [List.length_append] at count
      by_cases below : f.base ≤ base - 1
      · refine rest.congr ?_
        rw [List.take_set, List.set_eq_of_length_le]
        exact Nat.le_trans (List.length_take_le _ _) below
      · -- the function has nothing on the stack, so neither has it a slot for a result
        obtain ⟨rfl, none⟩ : f.base = base ∧ f.retSlots = 0 := by omega
        rw [none] at rest ⊢
        exact ih rest length

end Image.Waits

/-! ### The running function -/

namespace State.Runs

variable {m : Image} {s t u : State} {f : Frame} {callers : List Frame} {P Q : List Mark}
  {low high : List Int64}

theorem sound (h : s.Runs m f callers P low high) (frames : s.frames = f :: callers)
    (marks : m.marks? f.function f.pc = some P) : s.Sound m := by
  unfold Sound
  rw [frames]
  exact ⟨P, low, high, marks, h⟩

/-- Where the function is in its code does not matter. -/
theorem place (h : s.Runs m f callers P low high) (pc : Nat) : s.Runs m { f with pc } callers P low high :=
  ⟨h.stack, ⟨h.fits.room, h.fits.marks, h.fits.start⟩, h.root, h.waits⟩

theorem size_le (h : s.Runs m f callers P low high) : low.length ≤ s.stack.size := by
  rw [← Array.length_toList, h.stack, List.length_append]
  exact Nat.le_add_right _ _

/-- The values above the variables of the function can change. -/
theorem above {high' : List Int64} (h : s.Runs m f callers P low high)
    (stack : t.stack.toList = low ++ high'.reverse) (fits : f.Fits m Q low high') :
    t.Runs m f callers Q low high' := by
  refine ⟨stack, fits, h.root, h.waits.congr ?_⟩
  have le : f.base ≤ low.length := Nat.le_trans (Nat.le_add_right _ _) h.fits.base_le
  rw [stack, h.stack, List.take_append_of_le_length le, List.take_append_of_le_length le]

theorem push {x : Mark} {v : Int64} (h : s.Runs m f callers P low high)
    (stack : t.stack = s.stack.push v) (holds : x.Holds f.base v) :
    t.Runs m f callers (x :: P) low (v :: high) := by
  refine h.above ?_ (h.fits.push holds)
  rw [stack, Array.toList_push, h.stack, List.reverse_cons, List.append_assoc]

theorem pop {x : Mark} {v : Int64} (h : s.Runs m f callers (x :: P) low high)
    (top : s.stack.back? = some v) (stack : t.stack = s.stack.pop) :
    x.Holds f.base v ∧ ∃ rest, t.Runs m f callers P low rest := by
  obtain ⟨w, rest, holds, marks, rfl⟩ := List.forall₂_cons_left_iff.1 h.fits.marks
  have eq := h.stack
  rw [List.reverse_cons, ← List.append_assoc] at eq
  rw [← Array.getLast?_toList, eq, List.getLast?_concat, Option.some.injEq] at top
  refine ⟨top ▸ holds, rest, h.above ?_ ⟨h.fits.room, marks, h.fits.start⟩⟩
  rw [stack, Array.toList_pop, eq, List.dropLast_concat]

theorem exchange {α : Type} {x : Action α} {a : α} {k n : Nat} (h : s.Runs m f callers P low high)
    (hx : x.Replaces k n) (ht : x u = .ok a t) (stack : u.stack = s.stack) (marks : Mark.exchange k n P = some Q) :
    ∃ high', t.Runs m f callers Q low high' := by
  unfold Mark.exchange at marks
  split at marks
  · next le =>
    cases marks
    have length := h.fits.marks.length_eq
    obtain ⟨new, eq, rfl⟩ := (hx ht).2.2 (low ++ (high.drop k).reverse) (high.take k).reverse
      (by rw [stack, h.stack, List.append_assoc, ← List.reverse_append, List.take_append_drop])
      (by rw [List.length_reverse, List.length_take]; omega)
    have fits := (h.fits.drop k).pushAll new.reverse
    rw [List.length_reverse] at fits
    refine ⟨new.reverse ++ high.drop k, h.above ?_ fits⟩
    rw [eq, List.reverse_append, List.reverse_reverse, List.append_assoc]
  · cases marks

/-- Marks can be forgotten. -/
theorem forget (h : s.Runs m f callers P low high) (ne : f.function ≠ 0) (stack : t.stack = s.stack) :
    t.Runs m f callers [] t.stack.toList [] := by
  rw [stack]
  refine ⟨by rw [stack]; exact (List.append_nil _).symm, ⟨?_, .nil, fun eq => absurd eq ne⟩, h.root,
    stack ▸ h.waits⟩
  obtain ⟨g, found, ret, params, le⟩ := h.fits.room
  exact ⟨g, found, ret, params, Nat.le_trans le h.size_le⟩

/-- While no address waits, the function can overwrite what is its own. -/
theorem overwrite (h : s.Runs m f callers P low high) (calm : IsCalm P) {k : Nat} {v : Int64}
    (stack : t.stack.toList = s.stack.toList.set k v) (own : f.base ≤ k) :
    ∃ low' high', t.Runs m f callers P low' high' := by
  obtain ⟨low', high', eq, fits⟩ := h.fits.of_isCalm calm t.stack.toList
    (by rw [stack, List.length_set, h.stack])
  refine ⟨low', high', eq, fits, h.root, h.waits.congr ?_⟩
  rw [stack, List.take_set, List.set_eq_of_length_le]
  exact Nat.le_trans (List.length_take_le _ _) own

/-- While no address waits, it can overwrite the topmost value, even if that belongs to a caller. -/
theorem overwriteTop (h : s.Runs m f callers P low high) (calm : IsCalm P) {v : Int64}
    (stack : t.stack.toList = s.stack.toList.set (s.stack.toList.length - 1) v) :
    ∃ low' high', t.Runs m f callers P low' high' := by
  have le := h.fits.base_le
  have count := congrArg List.length h.stack
  rw [List.length_append] at count
  by_cases own : f.base ≤ s.stack.toList.length - 1
  · exact h.overwrite calm stack own
  · obtain ⟨low', high', eq, fits⟩ := h.fits.of_isCalm calm t.stack.toList
      (by rw [stack, List.length_set, h.stack])
    have waits := h.waits
    obtain ⟨none, length⟩ : f.retSlots = 0 ∧ s.stack.toList.length = f.base := by omega
    rw [none] at waits
    refine ⟨low', high', eq, fits, h.root, ?_⟩
    rw [stack, none, length]
    exact waits.overwrite length v

/-- A call takes slots and arguments, and the caller waits with what is left. -/
theorem call {g : Function} {j : Nat} (h : s.Runs m f callers P low high) (found : m.functions[j]? = some g)
    (ne : j ≠ 0) (after : g.after? P = some Q) (marks : m.marks? f.function f.pc = some Q)
    (stack : t.stack = s.stack ++ Array.replicate g.localSlots.toNat 0) :
    t.Runs m (.enter j (s.stack.size - g.taken) g.retSlots.toNat g.paramSlots.toNat) (f :: callers) []
      t.stack.toList [] := by
  unfold Function.after? at after
  split at after
  case isFalse => cases after
  case isTrue taken =>
    obtain ⟨le, calm, free⟩ := taken
    cases after
    have length := h.fits.marks.length_eq
    have size : s.stack.size = low.length + high.length := by
      rw [← Array.length_toList, h.stack, List.length_append, List.length_reverse]
    have below : s.stack.toList = (low ++ (high.drop g.taken).reverse) ++ (high.take g.taken).reverse := by
      rw [h.stack, List.append_assoc, ← List.reverse_append, List.take_append_drop]
    have slots : P.drop g.paramSlots.toNat = List.replicate g.retSlots.toNat .value ++ P.drop g.taken := by
      rw [← List.take_append_drop g.retSlots.toNat (P.drop g.paramSlots.toNat), List.drop_drop,
        Nat.add_comm g.paramSlots.toNat, ← Function.taken]
      congr 1
      rw [List.eq_replicate_iff]
      refine ⟨by rw [List.length_take, List.length_drop]; unfold Function.taken at le; omega, fun x mem => ?_⟩
      refine calm x ?_
      rw [List.take_drop, Nat.add_comm, ← Function.taken] at mem
      exact List.mem_of_mem_drop mem
    have all : t.stack.toList = s.stack.toList ++ List.replicate g.localSlots.toNat 0 := by
      rw [stack, Array.toList_append, Array.toList_replicate]
    refine ⟨(List.append_nil _).symm, ⟨⟨g, found, rfl, rfl, ?_⟩, .nil, fun eq => absurd eq ne⟩,
      fun eq => absurd eq ne, ⟨P.drop g.taken, low, high.drop g.taken, ?_, ?_, ?_, h.fits.drop _⟩,
      h.root, h.waits.congr ?_⟩
    · rw [all, List.length_append, List.length_replicate, Array.length_toList]
      unfold Frame.enter Function.taken at *
      dsimp only
      omega
    · rw [marks, slots]
      rfl
    · intro none x mem
      exact free none x (List.mem_of_mem_drop mem)
    · rw [all, below, List.append_assoc, List.take_left']
      rw [List.length_append, List.length_reverse, List.length_drop]
      change _ = s.stack.size - g.taken
      omega
    · have base : f.base ≤ s.stack.toList.length := by
        have := h.fits.base_le
        rw [Array.length_toList]
        omega
      rw [all, List.take_append_of_le_length base]

/-- A function that returns leaves its result to its caller. -/
theorem leave {g : Frame} (h : s.Runs m f (g :: callers) P low high)
    (stack : t.stack = State.leave f (g :: callers) s.stack) :
    ∃ P low high, m.marks? g.function g.pc = some P ∧ t.Runs m g callers P low high := by
  obtain ⟨⟨P', low', high', marks, -, eq, fits⟩, root, waits⟩ := h.waits
  have le := h.fits.base_le
  have count := congrArg List.length h.stack
  rw [List.length_append] at count
  have kept : t.stack.toList = s.stack.toList.take f.base ++ (s.stack.toList.drop f.base).take f.retSlots := by
    rw [stack, State.leave, if_neg (by simp), Array.toList_shrink, List.take_add]
  have results : ((s.stack.toList.drop f.base).take f.retSlots).reverse.length = f.retSlots := by
    rw [List.length_reverse, List.length_take, List.length_drop]
    omega
  have more := fits.pushAll ((s.stack.toList.drop f.base).take f.retSlots).reverse
  rw [results] at more
  have base : g.base ≤ f.base := by
    have := congrArg List.length eq
    rw [List.length_take, List.length_append] at this
    have := fits.base_le
    omega
  refine ⟨_, low', _, marks, ?_, more, root, waits.congr ?_⟩
  · rw [kept, eq, List.reverse_append, List.reverse_reverse, List.append_assoc]
  · rw [kept, List.take_append_of_le_length (by rw [List.length_take]; omega), List.take_take,
      Nat.min_eq_left base]

end State.Runs

end CZero
