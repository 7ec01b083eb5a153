import CZero.Proofs.Image.RoundTrip

/-!
# Bytes that are no image

A reader decides by the bytes that it has taken. So what it finds at the front of some bytes it finds at
the front of all longer ones, and if it wants more bytes than there are, then only more bytes can tell.

    bytes                        read as                    with more bytes behind them
    an image                     the image                  trailing bytes
    an image cut off             truncated, k are missing   the same fault until k more have come
    a wrong number or opcode     that fault                 that fault
    an image and k more bytes    k trailing bytes           trailing bytes

`Verdict` says this of one run of a reader, next to the run with more bytes. It passes from readers to
readers in sequence, and with that from the fields to the image.
-/

namespace CZero

/-- The bytes refute themselves, whatever follows them. -/
def ReadError.Refutes (b : List UInt8) : ReadError → Prop
  | .badMagic _ | .unsupportedVersion _ => True
  | .unknownOpcode byte offset => b[offset]? = some byte ∧ Opcode.ofByte? byte = none
  | .truncated _ _ | .trailing _ => False

namespace Image.Reader

/-! ### With more bytes -/

/-- What a reader makes of the bytes `rest` behind `before`, also if more bytes follow. It takes some of them,
it lacks some until enough have come, or it refuses them for good. -/
inductive Verdict {α : Type} (r : Reader α) (before rest : List UInt8) : Prop
  | takes (a : α) {taken left : List UInt8} : rest = taken ++ left →
    (∀ more, r.run ⟨taken ++ more, before.length⟩ = .ok (a, ⟨more, (before ++ taken).length⟩)) →
    Verdict r before rest
  | lacks (offset needed : Nat) : offset ≤ (before ++ rest).length → 0 < needed →
    (∀ more, more.length < needed →
      r.run ⟨rest ++ more, before.length⟩ = .error (.truncated offset (needed - more.length))) →
    Verdict r before rest
  | refuses (e : ReadError) : e.Refutes (before ++ rest) →
    (∀ more, r.run ⟨rest ++ more, before.length⟩ = .error e) → Verdict r before rest

/-- A reader that decides by the bytes it has taken. -/
def Steady {α : Type} (r : Reader α) : Prop :=
  ∀ before rest, Verdict r before rest

variable {α β : Type}

theorem steady_pure (a : α) : Steady (pure a) := by
  intro before rest
  refine .takes a (List.nil_append rest).symm fun more => ?_
  rw [List.append_nil]
  rfl

theorem steady_throw_bind {e : ReadError} (h : ∀ b, e.Refutes b) (f : α → Reader β) :
    Steady (throw e >>= f) :=
  fun before rest => .refuses e (h (before ++ rest)) fun _ => rfl

/-- A reader that goes on as another one does, once it has taken some bytes. -/
theorem Verdict.behind {r r' : Reader α} {before taken left : List UInt8}
    (h : Verdict r' (before ++ taken) left)
    (same : ∀ rest, r.run ⟨taken ++ rest, before.length⟩ = r'.run ⟨rest, (before ++ taken).length⟩) :
    Verdict r before (taken ++ left) := by
  cases h with
  | takes a split takes =>
    refine .takes a (by rw [split, List.append_assoc]) fun more => ?_
    rw [List.append_assoc, same, takes, List.append_assoc]
  | lacks offset needed le pos lacks =>
    refine .lacks offset needed (by rwa [← List.append_assoc]) pos fun more few => ?_
    rw [List.append_assoc, same, lacks more few]
  | refuses e refutes refuses =>
    refine .refuses e (by rwa [← List.append_assoc]) fun more => ?_
    rw [List.append_assoc, same, refuses]

/-- Readers in sequence decide by the bytes that they have taken in sequence. -/
theorem Steady.bind {r : Reader α} {f : α → Reader β} (h : Steady r) (k : ∀ a, Steady (f a)) :
    Steady (r >>= f) := by
  intro before rest
  cases h before rest with
  | lacks offset needed le pos lacks =>
    refine .lacks offset needed le pos fun more few => ?_
    rw [StateT.run_bind, lacks more few]
    rfl
  | refuses e refutes refuses =>
    refine .refuses e refutes fun more => ?_
    rw [StateT.run_bind, refuses]
    rfl
  | @takes a taken left split takes =>
    subst split
    refine (k a (before ++ taken) left).behind fun rest => ?_
    rw [StateT.run_bind, takes]
    rfl

/-! ### Fields -/

theorem steady_bytes (n : Nat) : Steady (bytes n) := by
  intro before rest
  by_cases enough : n ≤ rest.length
  · have taken : (rest.take n).length = n := List.length_take_of_le enough
    refine .takes (rest.take n) (List.take_append_drop n rest).symm fun more => ?_
    rw [List.length_append]
    exact reads_bytes _ taken more before.length
  · refine .lacks before.length (n - rest.length) (by simp) (by omega) fun more few => ?_
    have all : ((rest ++ more).take n).length = rest.length + more.length := by
      rw [List.length_take, List.length_append]
      omega
    simp only [bytes, StateT.run]
    rw [if_pos (by omega), all, Nat.sub_add_eq]

theorem steady_number (n : Nat) : Steady (number n) :=
  (steady_bytes n).bind fun _ => steady_pure _

theorem steady_word : Steady word :=
  (steady_number 4).bind fun _ => steady_pure _

theorem steady_times {r : Reader α} (h : Steady r) (n : Nat) : Steady (times r n) := by
  induction n with
  | zero => exact steady_pure _
  | succ n ih => exact h.bind fun _ => ih.bind fun _ => steady_pure _

theorem steady_global : Steady readGlobal :=
  (steady_number 1).bind fun _ => (steady_number 4).bind fun _ => (steady_bytes _).bind fun _ => steady_pure _

theorem steady_operand (bias : Int64) (op : Opcode) : Steady (operand bias op) := by
  unfold operand
  split
  · exact (steady_bytes _).bind fun _ => steady_pure _
  · exact steady_pure _

theorem run_instr_cons (bias : Int64) (byte : UInt8) (rest : List UInt8) (offset : Nat) :
    (instr bias).run ⟨byte :: rest, offset⟩ = match Opcode.ofByte? byte with
      | some op => (do return ⟨op, ← operand bias op⟩ : Reader Instr).run ⟨rest, offset + 1⟩
      | none => .error (.unknownOpcode byte offset) := by
  have read := (reads_byte byte).run_bind (fun n => match Opcode.ofByte? (UInt8.ofNat n) with
    | some op => do return ⟨op, ← operand bias op⟩
    | none => throw (.unknownOpcode (UInt8.ofNat n) offset) : Nat → Reader Instr) rest offset
  rw [UInt8.ofNat_toNat] at read
  refine Eq.trans read ?_
  cases Opcode.ofByte? byte <;> rfl

/-- An unknown operation is reported at its own place, which is behind all that was read before. -/
theorem steady_instr (bias : Int64) : Steady (instr bias) := by
  intro before rest
  cases rest with
  | nil =>
    refine .lacks before.length 1 (by simp) Nat.zero_lt_one fun more few => ?_
    rw [List.eq_nil_of_length_eq_zero (Nat.lt_one_iff.1 few)]
    rfl
  | cons byte rest =>
    cases known : Opcode.ofByte? byte with
    | none =>
      refine .refuses (.unknownOpcode byte before.length) ⟨by simp, known⟩ fun more => ?_
      rw [List.cons_append, run_instr_cons, known]
    | some op =>
      have operand : Steady (do return ⟨op, ← operand bias op⟩ : Reader Instr) :=
        (steady_operand bias op).bind fun _ => steady_pure _
      refine (operand (before ++ [byte]) rest).behind fun rest => ?_
      rw [List.singleton_append, run_instr_cons, known, List.length_append, List.length_singleton]

theorem steady_function (bias : Int64) : Steady (function bias) :=
  steady_word.bind fun _ => steady_word.bind fun _ => steady_word.bind fun _ => steady_word.bind fun _ =>
    (steady_number 4).bind fun count => (steady_times (steady_instr bias) count).bind fun _ => steady_pure _

/-! ### Images -/

/-- The tables of an image, whatever follows them. -/
def tables : Reader Image := do
  let found ← word
  if found ≠ magic then throw (.badMagic found)
  let found ← word
  if found ≠ version then throw (.unsupportedVersion found)
  let globals ← times readGlobal (← number 4)
  let count ← number 4
  let functions ← times (function (globalBias count)) count
  return ⟨globals, functions⟩

theorem steady_tables : Steady tables := by
  refine steady_word.bind fun found => ?_
  split
  · exact steady_throw_bind (e := .badMagic found) (fun _ => trivial) _
  refine steady_word.bind fun found => ?_
  split
  · exact steady_throw_bind (e := .unsupportedVersion found) (fun _ => trivial) _
  refine (steady_number 4).bind fun globals => (steady_times steady_global globals).bind fun _ => ?_
  refine (steady_number 4).bind fun count => ?_
  exact (steady_times (steady_function _) count).bind fun _ => steady_pure _

/-- An image is its tables, and nothing follows them. -/
theorem image_eq : image = (do
    let m ← tables
    let rest := (← get).rest
    if rest ≠ [] then throw (.trailing rest.length)
    return m) := by
  unfold image tables
  rw [bind_assoc]
  refine bind_congr fun found => ?_
  dsimp only
  split
  · rfl
  rw [bind_assoc]
  refine bind_congr fun found => ?_
  split
  · rfl
  simp only [bind_assoc, pure_bind]

end Image.Reader

namespace Image

open Reader

variable {b : List UInt8}

/-- Tables are an image if nothing is left behind them. -/
theorem ofBytes_of_ok {m : Image} {left : List UInt8} {offset : Nat}
    (h : tables.run ⟨b, 0⟩ = .ok (m, ⟨left, offset⟩)) :
    ofBytes b = if left = [] then .ok m else .error (.trailing left.length) := by
  rw [ofBytes, image_eq, StateT.run_bind, h]
  cases left <;> rfl

theorem ofBytes_of_error {e : ReadError} (h : tables.run ⟨b, 0⟩ = .error e) : ofBytes b = .error e := by
  rw [ofBytes, image_eq, StateT.run_bind, h]
  rfl

/-- What some bytes are read as, and what comes of all bytes that begin with them. -/
inductive Judged (b : List UInt8) : Except ReadError Image → Prop
  | whole (m : Image) : (∀ s, s ≠ [] → ofBytes (b ++ s) = .error (.trailing s.length)) → Judged b (.ok m)
  | excess (m : Image) {taken left : List UInt8} : b = taken ++ left → left ≠ [] → ofBytes taken = .ok m →
    Judged b (.error (.trailing left.length))
  | lacks (offset needed : Nat) : offset ≤ b.length → 0 < needed →
    (∀ s, s.length < needed → ofBytes (b ++ s) = .error (.truncated offset (needed - s.length))) →
    Judged b (.error (.truncated offset needed))
  | refuses (e : ReadError) : e.Refutes b → (∀ s, ofBytes (b ++ s) = .error e) → Judged b (.error e)

theorem judged (b : List UInt8) : Judged b (ofBytes b) := by
  cases steady_tables [] b with
  | @takes m taken left split takes =>
    have read (s : List UInt8) := ofBytes_of_ok (takes s)
    have ok : ofBytes taken = .ok m := by rw [← List.append_nil taken, read, if_pos rfl]
    by_cases none : left = []
    · obtain rfl : b = taken := by rw [split, none, List.append_nil]
      rw [ok]
      exact .whole m fun s some => by rw [read, if_neg some]
    · rw [split, read, if_neg none]
      exact .excess m rfl none ok
  | lacks offset needed le pos lacks =>
    have lacks (s : List UInt8) (few : s.length < needed) := ofBytes_of_error (lacks s few)
    have now := lacks [] pos
    rw [List.append_nil] at now
    rw [now]
    exact .lacks offset needed le pos lacks
  | refuses e refutes refuses =>
    have refuses (s : List UInt8) := ofBytes_of_error (refuses s)
    have now := refuses []
    rw [List.append_nil] at now
    rw [now]
    exact .refuses e refutes refuses

/-! ### Each kind of fault -/

/-- Bytes that end inside a field lack that field until the rest of it has come. -/
theorem ofBytes_truncated {offset needed : Nat} (h : ofBytes b = .error (.truncated offset needed)) :
    offset ≤ b.length ∧ 0 < needed ∧ ∀ s : List UInt8, s.length < needed →
      ofBytes (b ++ s) = .error (.truncated offset (needed - s.length)) := by
  have judged := judged b
  rw [h] at judged
  cases judged with
  | lacks _ _ le pos lacks => exact ⟨le, pos, lacks⟩
  | refuses _ refutes _ => exact refutes.elim

/-- Bytes with a wrong number or operation stay wrong, whatever follows them. -/
theorem ofBytes_refuted {e : ReadError} (h : ofBytes b = .error e)
    (isNot : ∀ n k, e ≠ .truncated n k ∧ e ≠ .trailing k) :
    e.Refutes b ∧ ∀ s, ofBytes (b ++ s) = .error e := by
  have judged := judged b
  rw [h] at judged
  cases judged with
  | excess => exact absurd rfl (isNot 0 _).2
  | lacks offset needed => exact absurd rfl (isNot offset needed).1
  | refuses _ refutes refuses => exact ⟨refutes, refuses⟩

/-- Whatever follows an image is too much. -/
theorem ofBytes_append_of_ok {m : Image} (h : ofBytes b = .ok m) {s : List UInt8} (some : s ≠ []) :
    ofBytes (b ++ s) = .error (.trailing s.length) := by
  have judged := judged b
  rw [h] at judged
  cases judged with
  | whole _ excess => exact excess s some

/-- There are `k` bytes too many exactly if an image ends before them. -/
theorem ofBytes_trailing_iff {k : Nat} :
    ofBytes b = .error (.trailing k) ↔ 0 < k ∧ ∃ m, ofBytes (b.take (b.length - k)) = .ok m := by
  constructor
  · intro h
    have judged := judged b
    rw [h] at judged
    cases judged with
    | @excess m taken left split some ok =>
      refine ⟨List.length_pos_iff.2 some, m, ?_⟩
      rw [split, List.length_append, Nat.add_sub_cancel, List.take_left, ok]
    | refuses _ refutes _ => exact refutes.elim
  · rintro ⟨pos, m, ok⟩
    have le : k ≤ b.length := by
      by_contra lt
      rw [Nat.sub_eq_zero_of_le (Nat.le_of_not_le lt), List.take_zero] at ok
      cases ok
    have length : (b.drop (b.length - k)).length = k := by
      rw [List.length_drop]
      omega
    have excess := ofBytes_append_of_ok ok (List.ne_nil_of_length_pos (length ▸ pos))
    rwa [List.take_append_drop, length] at excess

/-- An image that is cut off lacks no more than what was cut off. -/
theorem ofBytes_take_of_ok {m : Image} (h : ofBytes b = .ok m) {n : Nat} (lt : n < b.length) :
    ∃ offset needed, ofBytes (b.take n) = .error (.truncated offset needed) ∧ n + needed ≤ b.length := by
  have whole : b.take n ++ b.drop n = b := List.take_append_drop n b
  have some : b.drop n ≠ [] := mt List.drop_eq_nil_iff.1 (Nat.not_le_of_lt lt)
  have judged := judged (b.take n)
  generalize cut : ofBytes (b.take n) = result at judged
  cases judged with
  | whole m excess =>
    have := excess (b.drop n) some
    rw [whole, h] at this
    cases this
  | @excess m' taken left split some' ok =>
    have := ofBytes_append_of_ok ok (s := left ++ b.drop n) (by simp [some])
    rw [← List.append_assoc, ← split, whole, h] at this
    cases this
  | lacks offset needed le pos lacks =>
    refine ⟨offset, needed, rfl, ?_⟩
    by_contra few
    have := lacks (b.drop n) (by rw [List.length_drop]; omega)
    rw [whole, h] at this
    cases this
  | refuses e refutes refuses =>
    have := refuses (b.drop n)
    rw [whole, h] at this
    cases this

/-- No image begins with another one. -/
theorem eq_of_prefix {b' : List UInt8} {m m' : Image} (h : ofBytes b = .ok m) (h' : ofBytes b' = .ok m')
    (pre : b <+: b') : b = b' := by
  obtain ⟨s, rfl⟩ := pre
  by_contra ne
  have excess := ofBytes_append_of_ok h (s := s) fun none => ne (by rw [none, List.append_nil])
  rw [h'] at excess
  cases excess

/-- The faults of bytes that are no image say precisely what is wrong, and stay the same as long as more bytes
cannot mend it. Bytes that end inside a field lack `needed` bytes, and still the rest of these if fewer come.
A wrong number or operation stays one. Bytes are too many exactly behind an image, and an image that is cut off
lacks no more than what was cut off. So no image begins with another one. -/
theorem ofBytes_faults (b : List UInt8) :
    (∀ offset needed, ofBytes b = .error (.truncated offset needed) →
      offset ≤ b.length ∧ 0 < needed ∧ ∀ s : List UInt8, s.length < needed →
        ofBytes (b ++ s) = .error (.truncated offset (needed - s.length))) ∧
    (∀ found, ofBytes b = .error (.badMagic found) → ∀ s, ofBytes (b ++ s) = .error (.badMagic found)) ∧
    (∀ found, ofBytes b = .error (.unsupportedVersion found) →
      ∀ s, ofBytes (b ++ s) = .error (.unsupportedVersion found)) ∧
    (∀ byte offset, ofBytes b = .error (.unknownOpcode byte offset) →
      b[offset]? = some byte ∧ (∀ op : Opcode, op.byte ≠ byte) ∧
        ∀ s, ofBytes (b ++ s) = .error (.unknownOpcode byte offset)) ∧
    (∀ k, ofBytes b = .error (.trailing k) ↔ 0 < k ∧ ∃ m, ofBytes (b.take (b.length - k)) = .ok m) ∧
    (∀ m, ofBytes b = .ok m → ∀ n < b.length, ∃ offset needed,
      ofBytes (b.take n) = .error (.truncated offset needed) ∧ n + needed ≤ b.length) ∧
    ∀ b' m m', ofBytes b = .ok m → ofBytes b' = .ok m' → b <+: b' → b = b' := by
  refine ⟨fun _ _ => ofBytes_truncated, fun _ h => (ofBytes_refuted h ?_).2, fun _ h => (ofBytes_refuted h ?_).2,
    fun byte offset h => ?_, fun _ => ofBytes_trailing_iff, fun _ h _ => ofBytes_take_of_ok h,
    fun _ _ _ => eq_of_prefix⟩
  · exact fun _ _ => ⟨nofun, nofun⟩
  · exact fun _ _ => ⟨nofun, nofun⟩
  · obtain ⟨⟨found, unknown⟩, refuses⟩ := ofBytes_refuted h fun _ _ => ⟨nofun, nofun⟩
    refine ⟨found, ?_, refuses⟩
    rintro op rfl
    rw [Opcode.ofByte?_byte] at unknown
    cases unknown

end Image

end CZero
