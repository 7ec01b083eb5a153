import CZero.Proofs.Image.RoundTrip
import Mathlib.Data.List.Forall2

/-!
# Writing back what was read

An image has one binary form, up to one byte for each global: any byte but zero marks a constant, and
only `1` is written. So the bytes that an image was read from are known from the image, except for how
its constants were marked:

    magic 4 | version 4 | globals 4 | ( flag 1 | length 4 | bytes )* | functions 4 | ...
    0         4           8           12  ↑ free if it is not zero

`Takes r G` is the converse of `Reads`: whatever the reader `r` makes of an input, it makes of the bytes
that it takes, and these are of the form `G`.
-/

namespace CZero

/-! ### Numbers as bytes -/

theorem ofBigEndian_lt (bytes : List UInt8) : ofBigEndian bytes < 256 ^ bytes.length := by
  induction bytes with
  | nil => simp [ofBigEndian]
  | cons b bytes ih =>
    have high : b.toNat * 256 ^ bytes.length ≤ 255 * 256 ^ bytes.length :=
      Nat.mul_le_mul_right _ (Nat.le_of_lt_succ b.toNat_lt)
    rw [ofBigEndian_cons, List.length_cons, Nat.pow_succ]
    omega

/-- Only the low bytes are written. -/
theorem bigEndian_add_mul {k j : Nat} (h : k ≤ j) (n q : Nat) :
    bigEndian k (n + 256 ^ j * q) = bigEndian k n := by
  induction k with
  | zero => rfl
  | succ k ih =>
    have shift : (n + 256 ^ j * q) >>> (8 * k) = n >>> (8 * k) + 256 * (256 ^ (j - (k + 1)) * q) := by
      have split : 256 ^ j * q = 256 ^ k * (256 * (256 ^ (j - (k + 1)) * q)) := by
        rw [← Nat.mul_assoc, ← Nat.mul_assoc, ← Nat.pow_succ, ← Nat.pow_add,
          show k + 1 + (j - (k + 1)) = j by omega]
      rw [Nat.shiftRight_eq_div_pow, Nat.shiftRight_eq_div_pow, Nat.pow_mul, split,
        Nat.add_mul_div_left _ _ (Nat.pow_pos (by decide))]
    rw [bigEndian, bigEndian, ih (by omega), shift]
    congr 1
    rw [← UInt8.toNat_inj]
    simp

/-- Writing back a number that was read gives the bytes it was read from. -/
theorem bigEndian_ofBigEndian (bytes : List UInt8) :
    bigEndian bytes.length (ofBigEndian bytes) = bytes := by
  induction bytes with
  | nil => rfl
  | cons b bytes ih =>
    have lt := ofBigEndian_lt bytes
    have swap : b.toNat * 256 ^ bytes.length + ofBigEndian bytes
        = ofBigEndian bytes + 256 ^ bytes.length * b.toNat := by ring
    have top : (ofBigEndian bytes + 256 ^ bytes.length * b.toNat) >>> (8 * bytes.length) = b.toNat := by
      rw [Nat.shiftRight_eq_div_pow, Nat.pow_mul, Nat.add_mul_div_left _ _ (Nat.pow_pos (by decide)),
        Nat.div_eq_of_lt lt, Nat.zero_add]
    rw [List.length_cons, bigEndian, ofBigEndian_cons, swap, top, bigEndian_add_mul (Nat.le_refl _), ih,
      UInt8.ofNat_toNat]

/-- The same for a number in two's complement. -/
theorem bigEndian_signedOfBigEndian (bytes : List UInt8) (h : bytes.length ≤ 8) :
    bigEndian bytes.length (signedOfBigEndian bytes).toUInt64.toNat = bytes := by
  have dvd : ((256 ^ bytes.length : Nat) : Int) ∣ ((2 ^ 64 : Nat) : Int) :=
    Int.natCast_dvd_natCast.2 (Nat.pow_dvd_pow 256 h)
  have low : (signedOfBigEndian bytes).toUInt64.toNat % 256 ^ bytes.length = ofBigEndian bytes := by
    have signed := bmod_toUInt64 (signedOfBigEndian bytes)
    have value : (signedOfBigEndian bytes).toInt
        = ((ofBigEndian bytes : Int).bmod (256 ^ bytes.length)).bmod (2 ^ 64) := by
      rw [signedOfBigEndian, Int64.toInt_ofInt, Nat.shiftLeft_eq, Nat.one_mul, Nat.pow_mul]
      rfl
    have same : ((signedOfBigEndian bytes).toUInt64.toNat : Int) % ((2 ^ 64 : Nat) : Int)
        = (ofBigEndian bytes : Int).bmod (256 ^ bytes.length) % ((2 ^ 64 : Nat) : Int) := by
      rw [← Int.bmod_emod, signed, value, Int.bmod_emod]
    have rest := congrArg (· % ((256 ^ bytes.length : Nat) : Int)) same
    simp only [Int.emod_emod_of_dvd _ dvd, Int.bmod_emod] at rest
    rw [← Int.natCast_mod, ← Int.natCast_mod, Int.natCast_inj,
      Nat.mod_eq_of_lt (ofBigEndian_lt bytes)] at rest
    exact rest
  have split := Nat.mod_add_div (signedOfBigEndian bytes).toUInt64.toNat (256 ^ bytes.length)
  rw [low] at split
  rw [← split, bigEndian_add_mul (Nat.le_refl _), bigEndian_ofBigEndian]

namespace Image

/-! ### What a reader has taken -/

namespace Reader

/-- What the reader makes of its input it makes of bytes of this form. -/
def Takes {α : Type} (r : Reader α) (G : List UInt8 → α → Prop) : Prop :=
  ∀ input a after, r.run input = .ok (a, after) → ∃ bs, input.rest = bs ++ after.rest ∧ G bs a

variable {α β : Type} {r : Reader α} {G : List UInt8 → α → Prop}

theorem takes_pure {a : α} (h : G [] a) : (pure a : Reader α).Takes G := by
  intro input b after run
  cases run
  exact ⟨[], rfl, h⟩

theorem takes_throw (e : ReadError) : (throw e : Reader α).Takes G := by
  intro input a after run
  cases run

theorem run_bind_eq_ok {f : α → Reader β} {input after : Input} {b : β}
    (h : (r >>= f).run input = .ok (b, after)) :
    ∃ a between, r.run input = .ok (a, between) ∧ (f a).run between = .ok (b, after) := by
  rw [StateT.run_bind] at h
  cases eq : r.run input with
  | error e =>
    rw [eq] at h
    cases h
  | ok first =>
    rw [eq] at h
    exact ⟨first.1, first.2, rfl, h⟩

/-- Readers in sequence have taken their bytes in sequence. -/
theorem Takes.bind {f : α → Reader β} {H : List UInt8 → β → Prop} (h : r.Takes G)
    (k : ∀ bs a, G bs a → Takes (f a) fun cs b => H (bs ++ cs) b) : (r >>= f).Takes H := by
  intro input b after run
  obtain ⟨a, between, first, second⟩ := run_bind_eq_ok run
  obtain ⟨bs, rest, form⟩ := h input a between first
  obtain ⟨cs, rest', form'⟩ := k bs a form between b after second
  exact ⟨bs ++ cs, by rw [rest, rest', List.append_assoc], form'⟩

theorem takes_get {f : Input → Reader β} {H : List UInt8 → β → Prop} (h : ∀ input, (f input).Takes H) :
    (get >>= f).Takes H :=
  fun input => h input input

theorem takes_bytes (n : Nat) : (bytes n).Takes fun bs value => bs = value ∧ value.length = n := by
  intro input value after run
  simp only [bytes, StateT.run] at run
  split at run
  · cases run
  · next enough =>
    cases run
    have length : (input.rest.take n).length = n := by
      rw [List.length_take] at enough ⊢
      omega
    exact ⟨input.rest.take n, (List.take_append_drop n _).symm, rfl, length⟩

theorem takes_number (n : Nat) :
    (number n).Takes fun bs value => bs = bigEndian n value ∧ value < 256 ^ n := by
  refine (takes_bytes n).bind ?_
  rintro bs _ ⟨rfl, rfl⟩
  refine takes_pure ?_
  rw [List.append_nil, bigEndian_ofBigEndian]
  exact ⟨rfl, ofBigEndian_lt bs⟩

theorem takes_word : word.Takes fun bs value => bs = Image.word value.toNat := by
  refine (takes_number 4).bind ?_
  rintro _ n ⟨rfl, lt⟩
  refine takes_pure ?_
  rw [List.append_nil, UInt32.toNat_ofNat', Nat.mod_eq_of_lt (show n < 2 ^ 32 from lt)]
  rfl

theorem takes_times (h : r.Takes G) (n : Nat) :
    (times r n).Takes fun bs as => as.length = n ∧ ∃ parts, List.Forall₂ G parts as ∧ bs = parts.flatten := by
  induction n with
  | zero =>
    refine takes_pure ?_
    exact ⟨rfl, [], .nil, rfl⟩
  | succ n ih =>
    refine h.bind fun bs a form => ih.bind ?_
    rintro _ as ⟨rfl, parts, forms, rfl⟩
    refine takes_pure ?_
    exact ⟨rfl, bs :: parts, .cons form forms, by rw [List.append_nil, List.flatten_cons]⟩

end Reader

/-! ### The form of each part -/

/-- The bytes of a global with a given byte for its flag. -/
def flaggedBytes (flag : UInt8) (g : Global) : List UInt8 :=
  flag :: word g.value.length ++ g.value

/-- A byte that marks a global as what it is. -/
def Marks (flag : UInt8) (g : Global) : Prop :=
  g.isConst = (flag != 0)

namespace Reader

theorem takes_global : readGlobal.Takes fun bs g => ∃ flag, Marks flag g ∧ bs = flaggedBytes flag g := by
  refine (takes_number 1).bind ?_
  rintro _ flag ⟨rfl, lt⟩
  refine (takes_number 4).bind ?_
  rintro _ length ⟨rfl, -⟩
  refine (takes_bytes length).bind ?_
  rintro _ value ⟨rfl, rfl⟩
  refine takes_pure ?_
  refine ⟨UInt8.ofNat flag, ?_, ?_⟩
  · have small : (UInt8.ofNat flag).toNat = flag := by
      rw [UInt8.toNat_ofNat', Nat.mod_eq_of_lt (show flag < 2 ^ 8 from lt)]
    have zero : UInt8.ofNat flag = 0 ↔ flag = 0 := by
      rw [← UInt8.toNat_inj, small]
      rfl
    simp only [Marks, bne, beq_eq_decide, zero]
  · simp [flaggedBytes, bigEndian, Image.word]

theorem takes_operand (bias : Int64) (op : Opcode) :
    (operand bias op).Takes fun bs v =>
      bs = bigEndian op.operandWidth (writtenOperand bias ⟨op, v⟩).toUInt64.toNat ∧
        op.hasOperand = v.isSome := by
  rw [operand]
  by_cases has : op.hasOperand
  · rw [if_pos has]
    refine (takes_bytes op.operandWidth).bind ?_
    rintro bs _ ⟨rfl, length⟩
    refine takes_pure ?_
    have written : writtenOperand bias ⟨op, some (if op = .globa then signedOfBigEndian bs - bias
        else signedOfBigEndian bs)⟩ = signedOfBigEndian bs := by
      by_cases globa : op = .globa
      · simp [writtenOperand, globa]
      · simp [writtenOperand, globa]
    have le : bs.length ≤ 8 := by
      rw [length]
      cases op <;> decide
    rw [List.append_nil, written, ← length, bigEndian_signedOfBigEndian bs le]
    exact ⟨rfl, has⟩
  · rw [if_neg has]
    refine takes_pure ?_
    have width : op.operandWidth = 0 := by simpa [Opcode.hasOperand] using has
    rw [width]
    exact ⟨rfl, by simpa using has⟩

theorem takes_instr (bias : Int64) :
    (instr bias).Takes fun bs i => bs = instrBytes bias i ∧ i.isWellFormed := by
  refine takes_get fun _ => (takes_number 1).bind ?_
  rintro _ byte ⟨rfl, lt⟩
  have head : bigEndian 1 byte = [UInt8.ofNat byte] := by simp [bigEndian]
  dsimp only
  split
  · next op eq =>
    refine (takes_operand bias op).bind ?_
    rintro _ v ⟨rfl, wellFormed⟩
    refine takes_pure ?_
    rw [List.append_nil, head, instrBytes, Opcode.byte_of_ofByte? eq]
    exact ⟨rfl, by simp [Instr.isWellFormed, wellFormed]⟩
  · exact takes_throw _

theorem flatten_eq_flatMap {enc : α → List UInt8} {P : α → Prop} {parts : List (List UInt8)} {as : List α}
    (h : List.Forall₂ (fun bs a => bs = enc a ∧ P a) parts as) :
    parts.flatten = as.flatMap enc ∧ ∀ a ∈ as, P a := by
  induction h with
  | nil => exact ⟨rfl, nofun⟩
  | cons first _ ih =>
    obtain ⟨rfl, property⟩ := first
    exact ⟨by rw [List.flatten_cons, List.flatMap_cons, ih.1], List.forall_mem_cons.2 ⟨property, ih.2⟩⟩

theorem takes_function (bias : Int64) :
    (function bias).Takes fun bs f => bs = functionBytes bias f ∧ ∀ i ∈ f.body, i.isWellFormed := by
  refine takes_word.bind ?_
  rintro _ name rfl
  refine takes_word.bind ?_
  rintro _ ret rfl
  refine takes_word.bind ?_
  rintro _ params rfl
  refine takes_word.bind ?_
  rintro _ locals rfl
  refine (takes_number 4).bind ?_
  rintro _ count ⟨rfl, -⟩
  refine (takes_times (takes_instr bias) count).bind ?_
  rintro _ body ⟨rfl, parts, forms, rfl⟩
  obtain ⟨flat, wellFormed⟩ := flatten_eq_flatMap forms
  refine takes_pure ?_
  refine ⟨?_, wellFormed⟩
  simp only [functionBytes, Image.word, flat, List.append_assoc, List.append_nil]

theorem flatten_eq_zipWith {parts : List (List UInt8)} {globals : List Global}
    (h : List.Forall₂ (fun bs g => ∃ flag, Marks flag g ∧ bs = flaggedBytes flag g) parts globals) :
    ∃ flags, List.Forall₂ Marks flags globals ∧
      parts.flatten = (List.zipWith flaggedBytes flags globals).flatten := by
  induction h with
  | nil => exact ⟨[], .nil, rfl⟩
  | cons first _ ih =>
    obtain ⟨flag, marks, rfl⟩ := first
    obtain ⟨flags, all, flat⟩ := ih
    exact ⟨flag :: flags, .cons marks all, by rw [List.zipWith_cons_cons, List.flatten_cons,
      List.flatten_cons, flat]⟩

end Reader

/-- The binary form of an image with given bytes for the flags of its globals. -/
def flaggedForm (m : Image) (flags : List UInt8) : List UInt8 :=
  (word magic.toNat ++ word version.toNat ++ word m.globals.length)
    ++ (List.zipWith flaggedBytes flags m.globals).flatten
    ++ (word m.functions.length ++ m.functions.flatMap (functionBytes m.bias))

/-- A reader of images reads its input to the end, and that is a form of the image. -/
theorem Reader.form_of_image {input last : Input} {m : Image} (run : image.run input = .ok (m, last)) :
    (∀ f ∈ m.functions, ∀ i ∈ f.body, i.isWellFormed) ∧
      ∃ flags, List.Forall₂ Marks flags m.globals ∧ input.rest = m.flaggedForm flags := by
  obtain ⟨found, i₁, run₁, run⟩ := run_bind_eq_ok run
  split at run
  · cases run
  next eq₁ =>
  obtain ⟨found', i₂, run₂, run⟩ := run_bind_eq_ok run
  split at run
  · cases run
  next eq₂ =>
  obtain ⟨globalCount, i₃, run₃, run⟩ := run_bind_eq_ok run
  obtain ⟨globals, i₄, run₄, run⟩ := run_bind_eq_ok run
  obtain ⟨count, i₅, run₅, run⟩ := run_bind_eq_ok run
  obtain ⟨functions, i₆, run₆, run⟩ := run_bind_eq_ok run
  obtain ⟨_, _, ⟨⟩, run⟩ := run_bind_eq_ok run
  dsimp only at run
  split at run
  · cases run
  next empty =>
  cases run
  rw [not_not] at eq₁ eq₂ empty
  subst eq₁ eq₂
  obtain ⟨_, rest₁, rfl⟩ := takes_word _ _ _ run₁
  obtain ⟨_, rest₂, rfl⟩ := takes_word _ _ _ run₂
  obtain ⟨_, rest₃, rfl, -⟩ := takes_number 4 _ _ _ run₃
  obtain ⟨_, rest₄, rfl, parts, forms, rfl⟩ := takes_times takes_global _ _ _ _ run₄
  obtain ⟨_, rest₅, rfl, -⟩ := takes_number 4 _ _ _ run₅
  obtain ⟨_, rest₆, rfl, parts', forms', rfl⟩ := takes_times (takes_function _) _ _ _ _ run₆
  obtain ⟨flags, marks, flat⟩ := flatten_eq_zipWith forms
  obtain ⟨flat', wellFormed⟩ := flatten_eq_flatMap forms'
  refine ⟨wellFormed, flags, marks, ?_⟩
  rw [rest₁, rest₂, rest₃, rest₄, rest₅, rest₆, empty, flat, flat']
  simp only [flaggedForm, Image.word, bias, List.append_assoc, List.append_nil]

/-- An image that was read was read from a form of its own. -/
theorem flaggedForm_of_ofBytes {b : List UInt8} {m : Image} (h : ofBytes b = .ok m) :
    (∀ f ∈ m.functions, ∀ i ∈ f.body, i.isWellFormed) ∧
      ∃ flags, List.Forall₂ Marks flags m.globals ∧ b = m.flaggedForm flags := by
  rw [ofBytes] at h
  cases run : Reader.image.run ⟨b, 0⟩ with
  | error e =>
    rw [run] at h
    cases h
  | ok result =>
    rw [run] at h
    cases h
    exact Reader.form_of_image run

/-! ### The bytes that are free -/

/-- Where the flags of globals are, whose table begins at `start`. -/
def flagPlacesFrom (start : Nat) : List Global → List Nat
  | [] => []
  | g :: rest => start :: flagPlacesFrom (start + (5 + g.value.length)) rest

/-- Where the flags of the globals are in the binary form of an image. -/
def flagPlaces (m : Image) : List Nat :=
  flagPlacesFrom 12 m.globals

/-- The flag that is written for a global that was read with this one. -/
def cleanFlag (flag : UInt8) : UInt8 :=
  if flag = 0 then 0 else 1

/-- Bytes from place `start` on, with the flags among them as they are written. -/
def cleanFrom (start : Nat) (places : List Nat) (bytes : List UInt8) : List UInt8 :=
  bytes.mapIdx fun k x => if start + k ∈ places then cleanFlag x else x

theorem cleanFrom_append (start : Nat) (places : List Nat) (as bs : List UInt8) :
    cleanFrom start places (as ++ bs)
      = cleanFrom start places as ++ cleanFrom (start + as.length) places bs := by
  simp only [cleanFrom, List.mapIdx_append]
  congr 2
  funext k x
  rw [Nat.add_comm k, Nat.add_assoc]

/-- Bytes among which there is no flag. -/
theorem cleanFrom_of_outside {start : Nat} {places : List Nat} {bytes : List UInt8}
    (h : ∀ k ∈ places, k < start ∨ start + bytes.length ≤ k) : cleanFrom start places bytes = bytes := by
  refine List.ext_getElem? fun k => ?_
  rw [cleanFrom, List.getElem?_mapIdx]
  cases eq : bytes[k]? with
  | none => rfl
  | some x =>
    have lt := (List.getElem?_eq_some_iff.1 eq).1
    have outside : start + k ∉ places := fun mem => by
      have := h _ mem
      omega
    rw [Option.map_some, if_neg outside]

theorem le_of_mem_flagPlacesFrom {start k : Nat} {globals : List Global}
    (h : k ∈ flagPlacesFrom start globals) :
    start ≤ k ∧ k < start + (globals.map fun g => 5 + g.value.length).sum := by
  induction globals generalizing start with
  | nil => cases h
  | cons g rest ih =>
    rw [List.map_cons, List.sum_cons]
    rcases List.mem_cons.1 h with rfl | mem
    · omega
    · have := ih mem
      omega

theorem length_flaggedBytes (flag : UInt8) (g : Global) :
    (flaggedBytes flag g).length = 5 + g.value.length := by
  simp [flaggedBytes, word]
  omega

theorem length_table {flags : List UInt8} {globals : List Global} (h : List.Forall₂ Marks flags globals) :
    (List.zipWith flaggedBytes flags globals).flatten.length
      = (globals.map fun g => 5 + g.value.length).sum := by
  induction h with
  | nil => rfl
  | cons _ _ ih =>
    rw [List.zipWith_cons_cons, List.flatten_cons, List.length_append, length_flaggedBytes, ih,
      List.map_cons, List.sum_cons]

/-- In a table of globals the flags change and nothing else. `before` are the places of flags further to
the front. -/
theorem cleanFrom_table {flags : List UInt8} {globals : List Global} (h : List.Forall₂ Marks flags globals)
    (start : Nat) (before : List Nat) (hb : ∀ k ∈ before, k < start) :
    cleanFrom start (before ++ flagPlacesFrom start globals) (List.zipWith flaggedBytes flags globals).flatten
      = globals.flatMap globalBytes := by
  induction h generalizing start before with
  | nil => rfl
  | @cons flag g flags globals marks _ ih =>
    have clean : cleanFlag flag = if g.isConst then 1 else 0 := by
      rw [cleanFlag, marks]
      by_cases zero : flag = 0 <;> simp [zero]
    have head : cleanFrom start (before ++ flagPlacesFrom start (g :: globals)) [flag] = [cleanFlag flag] := by
      simp [cleanFrom, flagPlacesFrom]
    have tail : cleanFrom (start + 1) (before ++ flagPlacesFrom start (g :: globals))
        (word g.value.length ++ g.value) = word g.value.length ++ g.value := by
      refine cleanFrom_of_outside fun k mem => ?_
      have length : (word g.value.length ++ g.value).length = 4 + g.value.length := by simp [word]
      rw [length]
      rcases List.mem_append.1 mem with mem | mem
      · have := hb k mem
        omega
      · rcases List.mem_cons.1 mem with rfl | mem
        · omega
        · have := le_of_mem_flagPlacesFrom mem
          omega
    have rest := ih (start + (5 + g.value.length)) (before ++ [start]) (by
      intro k mem
      rcases List.mem_append.1 mem with mem | mem
      · have := hb k mem
        omega
      · rw [List.mem_singleton] at mem
        omega)
    rw [List.append_assoc, List.singleton_append] at rest
    have split : flaggedBytes flag g = [flag] ++ (word g.value.length ++ g.value) := rfl
    rw [List.zipWith_cons_cons, List.flatten_cons, List.flatMap_cons, cleanFrom_append, length_flaggedBytes,
      split, cleanFrom_append, head, List.length_singleton, tail, clean]
    exact congrArg₂ _ rfl rest

/-- The binary form of an image is what it was read from, with its flags as they are written. -/
theorem toBytes_eq_cleanFrom (m : Image) {flags : List UInt8} (h : List.Forall₂ Marks flags m.globals) :
    m.toBytes = cleanFrom 0 m.flagPlaces (m.flaggedForm flags) := by
  have header : (word magic.toNat ++ word version.toNat ++ word m.globals.length).length = 12 := by
    simp [word]
  have before : cleanFrom 0 m.flagPlaces (word magic.toNat ++ word version.toNat ++ word m.globals.length)
      = word magic.toNat ++ word version.toNat ++ word m.globals.length := by
    refine cleanFrom_of_outside fun k mem => ?_
    have := le_of_mem_flagPlacesFrom mem
    omega
  have table := cleanFrom_table h 12 [] nofun
  rw [List.nil_append] at table
  have after : cleanFrom (12 + (List.zipWith flaggedBytes flags m.globals).flatten.length) m.flagPlaces
        (word m.functions.length ++ m.functions.flatMap (functionBytes m.bias))
      = word m.functions.length ++ m.functions.flatMap (functionBytes m.bias) := by
    refine cleanFrom_of_outside fun k mem => ?_
    have := le_of_mem_flagPlacesFrom mem
    rw [length_table h]
    omega
  rw [flaggedForm, cleanFrom_append, cleanFrom_append, before, header, Nat.zero_add, flagPlaces, table,
    List.length_append, header, ← flagPlaces, Nat.zero_add, after, toBytes]
  simp only [List.append_assoc]

/-- The flags of a table are where they are looked for. -/
theorem forall₂_flagPlacesFrom {flags : List UInt8} {globals : List Global}
    (h : List.Forall₂ Marks flags globals) (before after : List UInt8) :
    List.Forall₂ (fun k g => ∃ x, (before ++ (List.zipWith flaggedBytes flags globals).flatten ++ after)[k]? =
      some x ∧ Marks x g) (flagPlacesFrom before.length globals) globals := by
  induction h generalizing before with
  | nil => exact .nil
  | @cons flag g flags globals marks _ ih =>
    have rest := ih (before ++ flaggedBytes flag g)
    rw [List.length_append, length_flaggedBytes] at rest
    simp only [List.zipWith_cons_cons, List.flatten_cons, flagPlacesFrom, ← List.append_assoc]
    refine .cons ⟨flag, ?_, marks⟩ rest
    rw [List.append_assoc, List.append_assoc, List.getElem?_append_right (Nat.le_refl _), Nat.sub_self]
    rfl

theorem forall₂_flagPlaces (m : Image) {flags : List UInt8} (h : List.Forall₂ Marks flags m.globals) :
    List.Forall₂ (fun k g => ∃ x, (m.flaggedForm flags)[k]? = some x ∧ Marks x g) m.flagPlaces m.globals :=
  forall₂_flagPlacesFrom h (word magic.toNat ++ word version.toNat ++ word m.globals.length) _

/-! ### Images that were read -/

theorem cleanFlag_eq_self_iff (x : UInt8) : cleanFlag x = x ↔ x = 0 ∨ x = 1 := by
  unfold cleanFlag
  by_cases zero : x = 0
  · simp [zero]
  · simp [zero, eq_comm]

theorem cleanFlag_eq_cleanFlag {x y : UInt8} (h : cleanFlag x = cleanFlag y) : x = y ∨ x ≠ 0 ∧ y ≠ 0 := by
  unfold cleanFlag at h
  by_cases hx : x = 0 <;> by_cases hy : y = 0 <;> simp_all

/-- Image `m` is written like `b`, with the flags as they are written. -/
def CleanForm (m : Image) (b : List UInt8) : Prop :=
  m.toBytes = b.mapIdx fun k x => if k ∈ m.flagPlaces then cleanFlag x else x

theorem cleanForm_of_ofBytes {b : List UInt8} {m : Image} (h : ofBytes b = .ok m) : m.CleanForm b := by
  obtain ⟨-, flags, marks, rfl⟩ := flaggedForm_of_ofBytes h
  rw [CleanForm, toBytes_eq_cleanFrom m marks, cleanFrom]
  simp only [Nat.zero_add]

namespace CleanForm

variable {m : Image} {b b' : List UInt8}

theorem length_eq (h : m.CleanForm b) : m.toBytes.length = b.length := by
  rw [h, List.length_mapIdx]

theorem getElem? (h : m.CleanForm b) (k : Nat) :
    m.toBytes[k]? = b[k]?.map fun x => if k ∈ m.flagPlaces then cleanFlag x else x := by
  rw [h, List.getElem?_mapIdx]

theorem eq_iff (h : m.CleanForm b) :
    m.toBytes = b ↔ ∀ k ∈ m.flagPlaces, ∀ x, b[k]? = some x → x = 0 ∨ x = 1 := by
  constructor
  · intro same k mem x hx
    have := h.getElem? k
    rw [same, hx, Option.map_some, if_pos mem, Option.some.injEq] at this
    exact (cleanFlag_eq_self_iff x).1 this.symm
  · intro flags
    refine List.ext_getElem? fun k => ?_
    rw [h.getElem? k]
    cases hx : b[k]? with
    | none => rfl
    | some x =>
      rw [Option.map_some]
      split
      · next mem => rw [(cleanFlag_eq_self_iff x).2 (flags k mem x hx)]
      · rfl

/-- Two forms of one image have the same bytes, except for flags that are not zero in both. -/
theorem eq_or_flags (h : m.CleanForm b) (h' : m.CleanForm b') (k : Nat) : b'[k]? = b[k]? ∨
    k ∈ m.flagPlaces ∧ ∃ x y, b'[k]? = some x ∧ b[k]? = some y ∧ x ≠ 0 ∧ y ≠ 0 := by
  have same := (h'.getElem? k).symm.trans (h.getElem? k)
  have length := h'.length_eq.symm.trans h.length_eq
  by_cases lt : k < b.length
  · have lt' : k < b'.length := length ▸ lt
    rw [List.getElem?_eq_getElem lt, List.getElem?_eq_getElem lt'] at same ⊢
    rw [Option.map_some, Option.map_some, Option.some.injEq] at same
    by_cases mem : k ∈ m.flagPlaces
    · rw [if_pos mem, if_pos mem] at same
      rcases cleanFlag_eq_cleanFlag same with eq | ⟨nonzero, nonzero'⟩
      · exact .inl (congrArg some eq)
      · exact .inr ⟨mem, _, _, rfl, rfl, nonzero, nonzero'⟩
    · rw [if_neg mem, if_neg mem] at same
      exact .inl (congrArg some same)
  · rw [List.getElem?_eq_none (by omega), List.getElem?_eq_none (by omega)]
    exact .inl rfl

end CleanForm

end Image

/-- An image that was read is written back byte for byte, except that the flag of a constant is written as
`1`. So its bytes come back exactly if no flag is anything but `0` and `1`, and other bytes that are read as
the same image differ only in flags that are not zero. -/
theorem Image.toBytes_of_ofBytes {b : List UInt8} {m : Image} (h : ofBytes b = .ok m) :
    (∀ f ∈ m.functions, ∀ i ∈ f.body, i.isWellFormed) ∧
    List.Forall₂ (fun k g => ∃ x, b[k]? = some x ∧ g.isConst = (x != 0)) m.flagPlaces m.globals ∧
    m.toBytes = b.mapIdx (fun k x => if k ∈ m.flagPlaces then (if x = 0 then 0 else 1) else x) ∧
    m.toBytes.length = b.length ∧
    (m.toBytes = b ↔ ∀ k ∈ m.flagPlaces, ∀ x, b[k]? = some x → x = 0 ∨ x = 1) ∧
    ∀ b', ofBytes b' = .ok m → b'.length = b.length ∧ ∀ k, b'[k]? = b[k]? ∨
      k ∈ m.flagPlaces ∧ ∃ x y, b'[k]? = some x ∧ b[k]? = some y ∧ x ≠ 0 ∧ y ≠ 0 := by
  obtain ⟨wellFormed, flags, marks, eq⟩ := flaggedForm_of_ofBytes h
  have clean := cleanForm_of_ofBytes h
  refine ⟨wellFormed, eq ▸ forall₂_flagPlaces m marks, clean, clean.length_eq, clean.eq_iff, fun b' h' => ?_⟩
  have clean' := cleanForm_of_ofBytes h'
  exact ⟨clean'.length_eq.symm.trans clean.length_eq, clean.eq_or_flags clean'⟩

/-- A constant marked with `255`, and a global with an empty value whose address lies below the first: the
flag is the only byte that does not come back. -/
theorem Image.toBytes_of_ofBytes_marked :
    let b : List UInt8 := [0x72, 0x30, 0x3b, 0x3e, 0, 0, 0, 1, 0, 0, 0, 2, 255, 0, 0, 0, 1, 65, 0, 0, 0, 0, 0,
      0, 0, 0, 1, 0, 0, 0, 0, 0, 0, 0, 0, 0, 0, 0, 0, 0, 0, 0, 0, 0, 0, 0, 2, 0x0c, 0, 0, 0, 4, 0x49]
    let m : Image := ⟨[⟨true, [65]⟩, ⟨false, []⟩], [⟨0, 0, 0, 0, [⟨.globa, some (-5)⟩, ⟨.ret, none⟩]⟩]⟩
    ofBytes b = .ok m ∧ m.flagPlaces = [12, 18] ∧ m.toBytes = b.set 12 1 ∧ m.toBytes ≠ b := by
  intro b m
  have read : ofBytes b = .ok m := by decide +kernel
  obtain ⟨-, -, clean, -, same, -⟩ := toBytes_of_ofBytes read
  refine ⟨read, rfl, clean.trans (by decide +kernel), fun eq => ?_⟩
  have := same.1 eq 12 (by decide +kernel) 255 rfl
  exact absurd this (by decide)

end CZero
