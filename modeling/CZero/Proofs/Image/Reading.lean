import CZero.Image.Read
import Mathlib.Tactic.Ring

/-!
# What a reader takes

`Reads r bs a` says that the reader `r` takes exactly the bytes `bs` from the front of its input, no
matter what follows them or how many bytes are behind, and makes `a` of them. Readers in sequence take
their bytes in sequence, so the binary form of an image is read part by part.

Numbers keep their low bytes: writing `n` in `k` bytes and reading it back gives `n % 256 ^ k`, and in
two's complement the same bits as a signed number.
-/

namespace CZero

/-! ### Numbers as bytes -/

theorem foldl_bigEndian (bytes : List UInt8) (acc : Nat) :
    bytes.foldl (fun n b => 256 * n + b.toNat) acc
      = acc * 256 ^ bytes.length + ofBigEndian bytes := by
  induction bytes generalizing acc with
  | nil => simp [ofBigEndian]
  | cons b bytes ih =>
    rw [ofBigEndian, List.foldl_cons, List.foldl_cons, ih, ih, List.length_cons, Nat.pow_succ]
    ring

theorem ofBigEndian_cons (b : UInt8) (bytes : List UInt8) :
    ofBigEndian (b :: bytes) = b.toNat * 256 ^ bytes.length + ofBigEndian bytes := by
  rw [ofBigEndian, List.foldl_cons, foldl_bigEndian]
  simp

/-- Reading back what was written keeps the low bytes. -/
theorem ofBigEndian_bigEndian (k n : Nat) : ofBigEndian (bigEndian k n) = n % 256 ^ k := by
  induction k with
  | zero => simp [bigEndian, ofBigEndian, Nat.mod_one]
  | succ k ih =>
    have shift : n >>> (8 * k) = n / 256 ^ k := by
      rw [Nat.shiftRight_eq_div_pow, Nat.pow_mul]
    rw [bigEndian, ofBigEndian_cons, ih, length_bigEndian, shift, Nat.mod_pow_succ]
    simp only [UInt8.toNat_ofNat', Nat.reducePow]
    ring

/-- The number of a 64-bit value as bytes, read in two's complement of `k` bytes. -/
theorem signedOfBigEndian_bigEndian (k : Nat) (v : Int64) :
    signedOfBigEndian (bigEndian k v.toUInt64.toNat)
      = Int64.ofInt (((v.toUInt64.toNat % 256 ^ k : Nat) : Int).bmod (256 ^ k)) := by
  rw [signedOfBigEndian, ofBigEndian_bigEndian, length_bigEndian, Nat.shiftLeft_eq, Nat.one_mul,
    Nat.pow_mul]

/-- The unsigned reading of a value differs from the signed one by a multiple of `2 ^ 64`. -/
theorem bmod_toUInt64 (v : Int64) : ((v.toUInt64.toNat : Nat) : Int).bmod (2 ^ 64) = v.toInt := by
  rw [Int64.toInt, BitVec.toInt_eq_toNat_bmod]
  rfl

/-- A value kept in its low 32 bits and extended by its sign. -/
def low32 (v : Int64) : Int64 :=
  v.toInt32.toInt64

theorem toInt_low32 (v : Int64) : (low32 v).toInt = v.toInt.bmod (2 ^ 32) := by
  rw [low32, Int32.toInt_toInt64, Int64.toInt_toInt32]

/-- Four bytes keep the low half of a value. -/
theorem signedOfBigEndian_four (v : Int64) :
    signedOfBigEndian (bigEndian 4 v.toUInt64.toNat) = low32 v := by
  rw [signedOfBigEndian_bigEndian, Int.natCast_mod, Int.emod_bmod, ← Int64.toInt_inj, toInt_low32,
    ← bmod_toUInt64 v, Int.bmod_bmod_of_dvd (by decide : 2 ^ 32 ∣ 2 ^ 64)]
  have low := Int.le_bmod (x := v.toUInt64.toNat) (m := 256 ^ 4) (by decide)
  have high := Int.bmod_lt (x := v.toUInt64.toNat) (m := 256 ^ 4) (by decide)
  exact Int64.toInt_ofInt_of_le (by omega) (by omega)

/-- Eight bytes keep a value. -/
theorem signedOfBigEndian_eight (v : Int64) :
    signedOfBigEndian (bigEndian 8 v.toUInt64.toNat) = v := by
  rw [signedOfBigEndian_bigEndian, Int.natCast_mod, Int.emod_bmod]
  exact (congrArg Int64.ofInt (bmod_toUInt64 v)).trans (Int64.ofInt_toInt v)

namespace Image.Reader

/-! ### Readers in sequence -/

/-- The reader takes these bytes and makes this value of them. -/
def Reads {α : Type} (r : Reader α) (bs : List UInt8) (a : α) : Prop :=
  ∀ rest offset, r.run ⟨bs ++ rest, offset⟩ = .ok (a, ⟨rest, offset + bs.length⟩)

theorem reads_pure {α : Type} (a : α) : Reads (pure a) [] a := fun _ _ => rfl

/-- What follows a reader goes on behind its bytes. -/
theorem Reads.run_bind {α β : Type} {r : Reader α} {bs : List UInt8} {a : α} (h : Reads r bs a)
    (f : α → Reader β) (rest : List UInt8) (offset : Nat) :
    (r >>= f).run ⟨bs ++ rest, offset⟩ = (f a).run ⟨rest, offset + bs.length⟩ := by
  rw [StateT.run_bind, h rest offset]
  rfl

theorem Reads.bind {α β : Type} {r : Reader α} {f : α → Reader β} {bs cs : List UInt8} {a : α}
    {b : β} (h : Reads r bs a) (k : Reads (f a) cs b) : Reads (r >>= f) (bs ++ cs) b := by
  intro rest offset
  rw [List.append_assoc, h.run_bind, k rest, List.length_append, Nat.add_assoc]

/-- Looking at the input takes nothing. -/
theorem reads_get {α : Type} {f : Input → Reader α} {bs : List UInt8} {a : α}
    (h : ∀ input, Reads (f input) bs a) : Reads (get >>= f) bs a :=
  fun rest offset => h ⟨bs ++ rest, offset⟩ rest offset

/-- A reader that only changes the value takes the same bytes. -/
theorem Reads.map {α β : Type} {r : Reader α} {bs : List UInt8} {a : α} (h : Reads r bs a)
    (f : α → β) : Reads (do return f (← r)) bs (f a) := by
  have both := h.bind (f := fun a => pure (f a)) (reads_pure (f a))
  rwa [List.append_nil] at both

theorem reads_bytes (bs : List UInt8) {n : Nat} (h : bs.length = n) : Reads (bytes n) bs bs := by
  subst h
  intro rest offset
  simp [bytes, StateT.run]

theorem reads_number (k n : Nat) : Reads (number k) (bigEndian k n) (n % 256 ^ k) := by
  rw [← ofBigEndian_bigEndian]
  exact (reads_bytes _ (length_bigEndian k n)).map ofBigEndian

/-- A length that fits into four bytes is read as it was written. -/
theorem reads_length {n : Nat} (h : n < 2 ^ 32) : Reads (number 4) (Image.word n) n := by
  have read := reads_number 4 n
  rwa [Nat.mod_eq_of_lt (show n < 256 ^ 4 from h)] at read

theorem reads_word (v : UInt32) : Reads word (Image.word v.toNat) v := by
  have read := (reads_length v.toNat_lt).map UInt32.ofNat
  rwa [UInt32.ofNat_toNat] at read

/-- Things of one kind are read one after the other, each as `f` makes it. -/
theorem reads_times {α β : Type} {r : Reader β} {enc : α → List UInt8} {f : α → β} (xs : List α)
    (h : ∀ x ∈ xs, Reads r (enc x) (f x)) :
    Reads (times r xs.length) (xs.flatMap enc) (xs.map f) := by
  induction xs with
  | nil => exact reads_pure _
  | cons x xs ih =>
    have tail := ih fun y hy => h y (List.mem_cons_of_mem _ hy)
    exact (h x List.mem_cons_self).bind (f := fun first => do
      let rest ← times r xs.length
      return first :: rest) (tail.map (f x :: ·))

end Image.Reader

end CZero
