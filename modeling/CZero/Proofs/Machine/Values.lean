import CZero.Proofs.Machine.Steps

/-!
# What instructions do to values

Most instructions take some values from the stack and leave others, and touch nothing else. The exceptions
are stores, calls and jumps. No instruction changes a global and then fails, so the globals that a run leaves
are those of the last state that it came to.
-/

namespace CZero

/-! ### What instructions do to values -/

namespace Action

variable {α β : Type}

/-- A computation that replaces the topmost `k` values by `n` others, and leaves all else on the machine. -/
def Replaces (k n : Nat) (x : Action α) : Prop :=
  ∀ ⦃s t a⦄, x s = .ok a t → t.frames = s.frames ∧ t.globals = s.globals ∧
    ∀ ys old, s.stack.toList = ys ++ old → old.length = k →
      ∃ new, t.stack.toList = ys ++ new ∧ new.length = n

variable {k l n : Nat}

theorem Replaces.bind {x : Action α} {f : α → Action β} (hx : x.Replaces k 0) (hf : ∀ a, (f a).Replaces l n) :
    (x >>= f).Replaces (l + k) n := by
  intro s t b h
  obtain ⟨a, u, first, rest⟩ := bind_eq_ok h
  obtain ⟨frames, globals, stack⟩ := hx first
  obtain ⟨frames', globals', stack'⟩ := hf a rest
  refine ⟨frames'.trans frames, globals'.trans globals, fun ys old eq length => ?_⟩
  obtain ⟨_, eq', none⟩ := stack (ys ++ old.take l) (old.drop l)
    (by rw [eq, List.append_assoc, List.take_append_drop]) (by rw [List.length_drop]; omega)
  rw [List.length_eq_zero_iff.1 none, List.append_nil] at eq'
  exact stack' ys (old.take l) eq' (by rw [List.length_take]; omega)

theorem replaces_pure (a : α) : Replaces 0 0 (pure a) := by
  rintro s _ _ ⟨⟩
  exact ⟨rfl, rfl, fun ys old eq length => ⟨old, eq, length⟩⟩

theorem replaces_throw (e : Fault) (k n : Nat) : Replaces k n (throw e : Action α) := by
  intro _ _ _ h
  cases h

theorem replaces_push (v : Int64) : (push v).Replaces 0 1 := by
  rintro s _ _ ⟨⟩
  refine ⟨rfl, rfl, fun ys old eq none => ⟨[v], ?_, rfl⟩⟩
  rw [Array.toList_push, eq, List.length_eq_zero_iff.1 none, List.append_nil]

theorem replaces_pushZeros (n : Nat) : (pushZeros n).Replaces 0 n := by
  rintro s _ _ ⟨⟩
  refine ⟨rfl, rfl, fun ys old eq none => ⟨List.replicate n 0, ?_, List.length_replicate⟩⟩
  rw [Array.toList_append, Array.toList_replicate, eq, List.length_eq_zero_iff.1 none, List.append_nil]

theorem replaces_pop : pop.Replaces 1 0 := by
  intro s t v h
  obtain ⟨-, rfl⟩ := pop_eq_ok h
  refine ⟨rfl, rfl, fun ys old eq one => ⟨[], ?_, rfl⟩⟩
  obtain ⟨w, rfl⟩ := List.length_eq_one_iff.1 one
  rw [Array.toList_pop, eq, List.dropLast_concat, List.append_nil]

theorem replaces_setTop (v : Int64) : (setTop v).Replaces 1 1 := by
  intro s t _ h
  unfold setTop at h
  split at h <;> cases h
  refine ⟨rfl, rfl, fun ys old eq one => ⟨[v], ?_, rfl⟩⟩
  obtain ⟨w, rfl⟩ := List.length_eq_one_iff.1 one
  rw [Array.toList_push, Array.toList_pop, eq, List.dropLast_concat]

theorem replaces_read : read.Replaces 0 0 := by
  intro s t v h
  unfold read at h
  split at h <;> cases h
  exact ⟨rfl, rfl, fun ys old eq length => ⟨old, eq, length⟩⟩

theorem replaces_write (text : String) : (write text).Replaces 0 0 := by
  rintro s _ _ ⟨⟩
  exact ⟨rfl, rfl, fun ys old eq length => ⟨old, eq, length⟩⟩

theorem replaces_load (address : Int64) : (load address).Replaces 0 0 := by
  intro s t v h
  unfold load at h
  dsimp only at h
  split at h <;> cases h
  exact ⟨rfl, rfl, fun ys old eq length => ⟨old, eq, length⟩⟩

theorem replaces_operand (i : Instr) : (operand i).Replaces 0 0 := by
  unfold operand
  split
  · exact replaces_pure _
  · exact replaces_throw _ 0 0

theorem replaces_slotOperand (i : Instr) : (slotOperand i).Replaces 0 0 := by
  refine (replaces_operand i).bind (l := 0) fun v => ?_
  split
  · exact replaces_pure _
  · exact replaces_throw _ 0 0

theorem replaces_frame : frame.Replaces 0 0 := by
  intro s t f h
  unfold frame at h
  split at h <;> cases h
  exact ⟨rfl, rfl, fun ys old eq length => ⟨old, eq, length⟩⟩

theorem replaces_binary (op : Int64 → Int64 → Int64) : (binary op).Replaces 2 1 :=
  replaces_pop.bind fun _ => replaces_pop.bind fun _ => replaces_push _

theorem replaces_unary (op : Int64 → Int64) : (unary op).Replaces 1 1 :=
  replaces_pop.bind fun _ => replaces_push _

theorem replaces_divide : divide.Replaces 2 1 := by
  refine replaces_pop.bind (l := 1) fun _ => replaces_pop.bind (l := 0) fun _ => ?_
  split
  · exact (replaces_throw _ 0 0).bind fun _ => replaces_push _
  · exact (replaces_pure _).bind fun _ => replaces_push _

end Action

/-! ### Stores -/

theorem eq_ofNat_of_index? {v : Int64} {n : Nat} (h : index? v = some n) : v = Int64.ofNat n := by
  rw [index?_eq_some] at h
  rw [← Int64.ofInt_eq_ofNat, ← h, Int64.ofInt_toInt]

namespace Action

variable {s t : State} {v : Int64}

/-- An address below `2 ^ 40` is one of the stack. -/
theorem store_own_eq_ok {k : Nat} (lt : k < 2 ^ 40) (h : store (Int64.ofNat k) v s = .ok () t) :
    t = { s with stack := s.stack.setIfInBounds k v } := by
  unfold store at h
  simp only [if_neg (not_globalBase_le lt), index?_ofNat (show k < 2 ^ 63 by omega)] at h
  split at h
  · next bound =>
    cases h
    simp [Array.setIfInBounds, bound]
  · cases h

/-- Replacing the topmost value is a store to its place. -/
theorem setTop_eq_ok (h : setTop v s = .ok () t) : t.frames = s.frames ∧ t.globals = s.globals ∧
    t.stack.toList = s.stack.toList.set (s.stack.toList.length - 1) v := by
  unfold setTop at h
  split at h <;> cases h
  next ne =>
    obtain ⟨xs, x, eq⟩ : ∃ xs x, s.stack.toList = xs ++ [x] := by
      refine ⟨_, _, (List.dropLast_concat_getLast fun nil => ne ?_).symm⟩
      rw [Array.isEmpty_iff, ← Array.toList_eq_nil_iff, nil]
    refine ⟨rfl, rfl, ?_⟩
    rw [Array.toList_push, Array.toList_pop, eq]
    simp

theorem store_global_eq_ok {n : Nat} (lt : n < 2 ^ 62) (h : store (globalBase + Int64.ofNat n) v s = .ok () t) :
    t = { s with globals := s.globals.setIfInBounds n v } := by
  unfold store at h
  simp only [if_pos (globalBase_le lt), globalBase_add_sub, index?_ofNat (show n < 2 ^ 63 by omega)] at h
  split at h
  · next bound =>
    cases h
    simp [Array.setIfInBounds, bound]
  · cases h

end Action

/-! ### Faults -/

namespace Action

variable {α β : Type}

/-- A computation that leaves the globals if it fails. -/
def Spares (x : Action α) : Prop :=
  ∀ ⦃s e t⦄, x s = .error e t → t.globals = s.globals

theorem Spares.bind {k : Nat} {x : Action α} {f : α → Action β} (hx : x.Spares) (calm : x.Replaces k 0)
    (hf : ∀ a, (f a).Spares) : (x >>= f).Spares := by
  intro s e t h
  change EStateM.bind x f s = _ at h
  unfold EStateM.bind at h
  split at h
  · next first => exact (hf _ h).trans (calm first).2.1
  · next first =>
    cases h
    exact hx first

theorem spares_pure (a : α) : Spares (pure a) := by
  intro s e t h
  cases h

theorem spares_throw (e : Fault) : Spares (throw e : Action α) := by
  rintro s _ _ ⟨⟩
  rfl

theorem spares_push (v : Int64) : (push v).Spares := by
  intro s e t h
  cases h

theorem spares_pushZeros (n : Nat) : (pushZeros n).Spares := by
  intro s e t h
  cases h

theorem spares_write (text : String) : (write text).Spares := by
  intro s e t h
  cases h

theorem spares_pop : pop.Spares := by
  intro s e t h
  unfold pop at h
  split at h <;> cases h
  rfl

theorem spares_setTop (v : Int64) : (setTop v).Spares := by
  intro s e t h
  unfold setTop at h
  split at h <;> cases h
  rfl

theorem spares_read : read.Spares := by
  intro s e t h
  unfold read at h
  split at h <;> cases h
  rfl

theorem spares_frame : frame.Spares := by
  intro s e t h
  unfold frame at h
  split at h <;> cases h
  rfl

theorem spares_load (address : Int64) : (load address).Spares := by
  intro s e t h
  unfold load at h
  dsimp only at h
  split at h <;> cases h
  rfl

theorem spares_store (address value : Int64) : (store address value).Spares := by
  intro s e t h
  unfold store at h
  split at h <;> split at h <;> try split at h
  all_goals cases h
  all_goals rfl

theorem spares_operand (i : Instr) : (operand i).Spares := by
  unfold operand
  split
  · exact spares_pure _
  · exact spares_throw _

theorem spares_slotOperand (i : Instr) : (slotOperand i).Spares := by
  refine (spares_operand i).bind (replaces_operand i) fun v => ?_
  split
  · exact spares_pure _
  · exact spares_throw _

theorem spares_binary (op : Int64 → Int64 → Int64) : (binary op).Spares :=
  spares_pop.bind replaces_pop fun _ => spares_pop.bind replaces_pop fun _ => spares_push _

theorem spares_unary (op : Int64 → Int64) : (unary op).Spares :=
  spares_pop.bind replaces_pop fun _ => spares_push _

theorem spares_divide : divide.Spares := by
  refine spares_pop.bind replaces_pop fun _ => spares_pop.bind replaces_pop fun _ => ?_
  split
  · exact (spares_throw _).bind (replaces_throw _ 0 0) fun _ => spares_push _
  · exact (spares_pure _).bind (replaces_pure _) fun _ => spares_push _

theorem spares_jump (m : Image) (offset : Int64) : (jump m offset).Spares := by
  intro s e t h
  unfold jump at h
  split at h
  · cases h
    rfl
  · dsimp only at h
    split at h
    · split at h <;> cases h
      rfl
    · cases h
      rfl

theorem spares_call (m : Image) (index : Int64) : (call m index).Spares := by
  intro s e t h
  unfold call at h
  split at h
  · cases h
    rfl
  · dsimp only at h
    split at h <;> cases h
    rfl

theorem spares_ret : ret.Spares := by
  intro s e t h
  unfold ret at h
  split at h <;> cases h

theorem spares_library (m : Image) (f : LibraryFn) : (library m f).Spares := by
  cases f with
  | getint | getchar | getdouble => exact spares_read.bind replaces_read fun _ => spares_setTop _
  | putint | putdouble => exact spares_pop.bind replaces_pop fun _ => spares_write _
  | putchar | putstr =>
    refine spares_pop.bind replaces_pop fun _ => ?_
    split
    · exact spares_write _
    · exact spares_throw _
  | putln => exact spares_write _

theorem spares_perform (m : Image) (i : Instr) : (perform m i).Spares := by
  unfold perform
  have operand := fun {β : Type} {f : Int64 → Action β} =>
    (spares_operand i).bind (f := f) (replaces_operand i)
  have slot := fun {β : Type} {f : Nat → Action β} =>
    (spares_slotOperand i).bind (f := f) (replaces_slotOperand i)
  have pop := fun {β : Type} {f : Int64 → Action β} => spares_pop.bind (f := f) replaces_pop
  cases i.opcode with
  | push | globa => exact operand fun _ => spares_push _
  | loca | arga => exact slot fun _ => spares_frame.bind replaces_frame fun _ => spares_push _
  | stackalloc => exact slot fun _ => spares_pushZeros _
  | load64 => exact pop fun a => (spares_load a).bind (replaces_load a) fun _ => spares_push _
  | store64 => exact pop fun _ => pop fun _ => spares_store _ _
  | addi | subi | multi | cmpi => exact spares_binary _
  | negi | setlt | setgt => exact spares_unary _
  | divi => exact spares_divide
  | br => exact operand fun _ => spares_jump m _
  | brtrue | brfalse =>
    refine operand fun _ => pop fun _ => ?_
    split
    · exact spares_jump m _
    · exact spares_pure _
  | call => exact operand fun _ => spares_call m _
  | callname =>
    refine operand fun _ => ?_
    split
    · exact spares_library m _
    · exact spares_throw _
  | ret => exact spares_ret

end Action

/-! ### Where a run halts -/

/-- The globals that a run leaves when it ends by itself are those of a state that it came to. -/
theorem State.Halts.exists_reach {m : Image} {s t : State} {n : Nat} {o : Except Fault Unit} (h : Halts m s n o t) :
    ∃ k u, k ≤ n ∧ Reach m k s u ∧ t.globals = u.globals := by
  induction h with
  | @done s t fetched => exact ⟨0, t, Nat.le_refl 0, reach_of_fetch_none fetched, rfl⟩
  | @fault s t u i e fetched failed =>
    obtain ⟨v, f, callers, reach, -, -, rfl⟩ := reach_of_fetch fetched
    have kept := Action.spares_perform m i failed
    exact ⟨0, v, Nat.zero_le 1, reach, kept⟩
  | @step s t u v i n o fetched executed _ ih =>
    obtain ⟨w, f, callers, reach, hs, hi, rfl⟩ := reach_of_fetch fetched
    obtain ⟨k, x, le, more, globals⟩ := ih
    have all := reach.trans (.exec hs hi executed more)
    rw [Nat.zero_add] at all
    exact ⟨k + 1, x, Nat.succ_le_succ le, all, globals⟩

end CZero
