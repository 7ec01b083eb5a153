import CZero.Proofs.Codegen.Stmt
import CZero.Proofs.Machine.Move
import Mathlib.Algebra.Order.Ring.Nat

/-!
# Pieces of code

The code of a condition and of a block has one jump behind it, and control that is in such a piece
leaves it in one of three ways: with the function; through the jump; or past the jump, if the code ends
in a conditional branch and that branch is taken. The last way is how a condition chooses its block. It
is open to a block too, if its last statement is a comparison.

`Piece.law` says this of all runs. All it asks of the code is that jumps stay inside (`IsClosed`), which
every code that is generated satisfies.
-/

namespace CZero

/-! ### Places in the code -/

/-- A value is an index exactly if it is not negative. -/
theorem index?_eq_some {v : Int64} {n : Nat} : index? v = some n ↔ v.toInt = n := by
  unfold index?
  rw [← Int64.toNat_toInt]
  by_cases h : v < 0
  · rw [if_pos h]
    rw [Int64.lt_iff_toInt_lt, Int64.toInt_zero] at h
    exact ⟨nofun, fun eq => absurd h (by omega)⟩
  · rw [if_neg h, Option.some_inj]
    rw [Int64.lt_iff_toInt_lt, Int64.toInt_zero] at h
    omega

theorem toInt_ofNat_add_ofInt (pc : Nat) (n : Int) :
    (Int64.ofNat pc + Int64.ofInt n).toInt = (pc + n).bmod (2 ^ 64) := by
  rw [← Int64.ofInt_eq_ofNat, ← Int64.ofInt_add]
  exact Int64.toInt_ofInt

/-- A jump goes where its offset says, unless it wraps around. -/
theorem target_eq {pc target : Nat} {n : Int} (h : index? (Int64.ofNat pc + Int64.ofInt n) = some target)
    (lo : 0 ≤ pc + n) (hi : pc + n < 2 ^ 64) : (target : Int) = pc + n := by
  rw [index?_eq_some, toInt_ofNat_add_ofInt, Int.bmod_def] at h
  split at h <;> omega

/-- Function `j` has this code at place `pc`. -/
def Image.Holds (m : Image) (j pc : Nat) (code : List Instr) : Prop :=
  ∀ i x, code[i]? = some x → m.instr? j (pc + i) = some x

theorem Image.holds_append {m : Image} {j pc : Nat} {xs ys : List Instr} :
    m.Holds j pc (xs ++ ys) ↔ m.Holds j pc xs ∧ m.Holds j (pc + xs.length) ys := by
  constructor
  · intro h
    constructor
    · intro i x hx
      obtain ⟨lt, -⟩ := List.getElem?_eq_some_iff.1 hx
      exact h i x (by rw [List.getElem?_append_left lt, hx])
    · intro i x hx
      have := h (xs.length + i) x (by rw [List.getElem?_append_right (by omega), ← hx]; congr 1; omega)
      rwa [← Nat.add_assoc] at this
  · rintro ⟨hx, hy⟩ i x h
    rw [List.getElem?_append] at h
    split at h
    · exact hx i x h
    · have := hy (i - xs.length) x h
      rwa [Nat.add_assoc, Nat.add_sub_cancel' (by omega)] at this

theorem Image.holds_cons {m : Image} {j pc : Nat} {x : Instr} {xs : List Instr} :
    m.Holds j pc (x :: xs) ↔ m.instr? j pc = some x ∧ m.Holds j (pc + 1) xs := by
  rw [← List.singleton_append, holds_append]
  refine and_congr_left' ⟨fun h => h 0 x rfl, fun h i y hy => ?_⟩
  cases i with
  | zero => simpa using hy ▸ h
  | succ i => simp at hy

theorem Image.Holds.place {m : Image} {j pc pc' : Nat} {code : List Instr} (h : m.Holds j pc code)
    (eq : pc = pc') : m.Holds j pc' code :=
  eq ▸ h

/-- In code that stands at place `k`, jumps go to places up to `n`, and conditional branches skip one
instruction. -/
def JumpsWithin (k n : Nat) (code : List Instr) : Prop :=
  ∀ (i : Nat) (x : Instr), code[i]? = some x →
    (x.opcode = .br → ∃ d : Int, x = jumpBy d ∧ 0 ≤ k + i + 1 + d ∧ k + i + 1 + d ≤ n) ∧
    (x.opcode.isConditional → x.operand = some 1)

/-- Jumps stay inside the code or go just behind it. -/
def IsClosed (code : List Instr) : Prop :=
  JumpsWithin 0 code.length code

/-! ### Pieces -/

/-- A piece of the code of a function that has a jump behind it. -/
structure Piece where
  start : Nat
  code : List Instr

namespace Piece

/-- The place of the jump behind the piece. -/
def jump (z : Piece) : Nat :=
  z.start + z.code.length

/-- The place behind that jump. -/
def past (z : Piece) : Nat :=
  z.jump + 1

/-- The code of the piece and the jump behind it. -/
def Has (z : Piece) (pc : Nat) : Prop :=
  z.start ≤ pc ∧ pc ≤ z.jump

end Piece

/-- The function that is active at depth `d` is function `j`, and goes on at place `pc`. -/
def State.At (s : State) (d j pc : Nat) : Prop :=
  ∃ f, s.frame? d = some f ∧ f.function = j ∧ f.pc = pc

/-- The function that is active at depth `d` is function `j`, and control is in a piece of its code. -/
def State.In (s : State) (d j : Nat) (z : Piece) : Prop :=
  ∃ pc, s.At d j pc ∧ z.Has pc

/-- How the function that is active at depth `d` leaves a piece of its code in one move. -/
inductive Piece.Exit (z : Piece) (j target d : Nat) (s t : State) : Prop
  /-- It returns. -/
  | returns : t.frame? d = none → Exit z j target d s t
  /-- It takes the jump behind the piece. -/
  | jumps : s.At d j z.jump → t.At d j target → Exit z j target d s t
  /-- It skips that jump, by a conditional branch that ends the piece and is taken. -/
  | skips {code x} : z.code = code ++ [x] → x.opcode.isConditional → s.At d j (z.start + code.length) →
    x.jumps s.stack → t.At d j z.past → Exit z j target d s t

/-- Moves that keep control in a piece. -/
abbrev Piece.Stays (m : Image) (j d : Nat) (z : Piece) : State → State → Prop :=
  Relation.ReflTransGen fun s t => State.Move m s t ∧ t.In d j z

/-- What is known of all runs that come to a piece of the code of function `j`. -/
structure Piece.Law (m : Image) (j : Nat) (z : Piece) (target : Nat) : Prop where
  /-- Control stays in the piece up to one of its exits. -/
  leaves : ∀ d s t, s.In d j z → State.Moves m s t →
    z.Stays m j d s t ∨
      ∃ u v, z.Stays m j d s u ∧ State.Move m u v ∧ z.Exit j target d u v ∧ State.Moves m v t
  /-- A function that runs on to the jump takes it. -/
  takes : ∀ d s t, s.At d j z.jump → s.frames.length = d + 1 → State.Move m s t → t.At d j target
  /-- A function that comes to a conditional branch at the end skips the jump if it takes the branch. -/
  skips : ∀ d s t code x, z.code = code ++ [x] → x.opcode.isConditional →
    s.At d j (z.start + code.length) → s.frames.length = d + 1 → x.jumps s.stack → State.Move m s t →
    t.At d j z.past

/-- A conditional branch or a jump is the only way not to go on with the next instruction. -/
theorem Instr.isBranch_of_jumps {x : Instr} {stack : Array Int64} (h : x.jumps stack = true) :
    x.opcode = .br ∨ x.opcode.isConditional := by
  unfold jumps at h
  cases op : x.opcode with
  | br => exact .inl rfl
  | brtrue | brfalse => exact .inr rfl
  | _ => rw [op] at h; cases h

namespace State

variable {m : Image} {j d pc : Nat} {x : Instr} {s t : State}

/-- The running function goes on at the next instruction, or returns, unless it jumps. -/
theorem Move.at_of_next (h : Move m s t) (hs : s.At d j pc) (runs : s.frames.length = d + 1)
    (hx : m.instr? j pc = some x) (no : x.jumps s.stack = false) : t.At d j (pc + 1) ∨ t.frame? d = none := by
  obtain ⟨f, hf, rfl, rfl⟩ := hs
  obtain ⟨-, none⟩ | ⟨i, hi, ⟨yes, -⟩ | ⟨-, next | gone⟩⟩ := h.frame?_of_runs hf runs
  · cases none.symm.trans hx
  · cases hi.symm.trans hx
    cases no.symm.trans yes
  · exact .inl ⟨_, next, rfl, rfl⟩
  · exact .inr gone

/-- The running function goes on where it jumps to. -/
theorem Move.at_of_jumps {n : Int} {target : Nat} (h : Move m s t) (hs : s.At d j pc)
    (runs : s.frames.length = d + 1) (hx : m.instr? j pc = some x) (yes : x.jumps s.stack = true)
    (operand : x.operand = some (Int64.ofInt n)) (ht : (target : Int) = pc + 1 + n)
    (small : target < 2 ^ 64) : t.At d j target := by
  obtain ⟨f, hf, rfl, rfl⟩ := hs
  obtain ⟨-, none⟩ | ⟨i, hi, ⟨-, v, place, hv, hplace, next⟩ | ⟨no, -⟩⟩ := h.frame?_of_runs hf runs
  · cases none.symm.trans hx
  · cases hi.symm.trans hx
    cases hv.symm.trans operand
    have eq := target_eq hplace (by omega) (by omega)
    obtain rfl : place = target := by omega
    exact ⟨_, next, rfl, rfl⟩
  · cases hi.symm.trans hx
    cases no.symm.trans yes

end State

namespace Piece

variable {m : Image} {j d target : Nat} {z : Piece} {n : Int} {s t : State}

/-- The jump behind a piece is taken. -/
theorem at_of_jump (holds : m.Holds j z.start (z.code ++ [jumpBy n])) (ht : (target : Int) = z.past + n)
    (small : target < 2 ^ 64) (hs : s.At d j z.jump) (runs : s.frames.length = d + 1)
    (h : State.Move m s t) : t.At d j target := by
  obtain ⟨-, last⟩ := Image.holds_append.1 holds
  exact h.at_of_jumps hs runs (Image.holds_cons.1 last).1 rfl rfl (by rw [ht, past]; omega) small

/-- A conditional branch at the end of a piece skips the jump behind it if it is taken. -/
theorem at_of_branch {code : List Instr} {x : Instr} (holds : m.Holds j z.start (z.code ++ [jumpBy n]))
    (closed : IsClosed z.code) (small : z.past < 2 ^ 64) (hz : z.code = code ++ [x])
    (cond : x.opcode.isConditional) (hs : s.At d j (z.start + code.length))
    (runs : s.frames.length = d + 1) (yes : x.jumps s.stack = true) (h : State.Move m s t) :
    t.At d j z.past := by
  have hx : z.code[code.length]? = some x := by simp [hz]
  obtain ⟨first, -⟩ := Image.holds_append.1 holds
  refine h.at_of_jumps (n := 1) hs runs (first _ _ hx) yes ((closed _ _ hx).2 cond) ?_ small
  simp only [past, jump, hz, List.length_append, List.length_singleton]
  omega

/-- What one move does to control in a piece. -/
theorem move_cases (holds : m.Holds j z.start (z.code ++ [jumpBy n])) (closed : IsClosed z.code)
    (small : z.past < 2 ^ 64) (small' : target < 2 ^ 64) (ht : (target : Int) = z.past + n)
    (hs : s.In d j z) (h : State.Move m s t) : t.In d j z ∨ z.Exit j target d s t := by
  obtain ⟨pc, here, low, high⟩ := hs
  by_cases runs : s.frames.length = d + 1
  · obtain rfl | inside := Nat.eq_or_lt_of_le high
    · exact .inr (.jumps here (at_of_jump holds ht small' here runs h))
    -- the instruction is one of the piece itself
    obtain ⟨i, rfl⟩ := Nat.exists_eq_add_of_le low
    have lt : i < z.code.length := by unfold jump at inside; omega
    have hx : z.code[i]? = some z.code[i] := List.getElem?_eq_getElem lt
    have instr := (Image.holds_append.1 holds).1 _ _ hx
    cases jumps : z.code[i].jumps s.stack with
    | false =>
      obtain next | gone := h.at_of_next here runs instr jumps
      · exact .inl ⟨_, next, by omega, by omega⟩
      · exact .inr (.returns gone)
    | true =>
      obtain br | cond := Instr.isBranch_of_jumps jumps
      · obtain ⟨k, eq, ge, le⟩ := (closed _ _ hx).1 br
        obtain ⟨target', eq'⟩ := Int.eq_ofNat_of_zero_le ge
        refine .inl ⟨z.start + target', h.at_of_jumps here runs instr jumps (by rw [eq]; rfl) ?_ ?_, ?_, ?_⟩
        all_goals unfold past jump at *; omega
      · by_cases last : i + 1 = z.code.length
        · have split : z.code = z.code.take i ++ [z.code[i]] := by
            rw [List.take_append_getElem, last, List.take_length]
          have length : (z.code.take i).length = i := by rw [List.length_take]; omega
          rw [← length] at here
          exact .inr (.skips split cond here jumps
            (at_of_branch holds closed small split cond here runs jumps h))
        · refine .inl ⟨z.start + i + 2, h.at_of_jumps (n := 1) here runs instr jumps
            ((closed _ _ hx).2 cond) ?_ ?_, ?_, ?_⟩
          all_goals unfold past jump at *; omega
  · obtain ⟨f, hf, rfl, rfl⟩ := here
    exact .inl ⟨f.pc, ⟨f, h.frame?_of_waits hf runs, rfl, rfl⟩, low, high⟩

/-- What is known of all runs that come to a piece of code with a jump behind it. -/
theorem law (holds : m.Holds j z.start (z.code ++ [jumpBy n])) (closed : IsClosed z.code)
    (small : z.past < 2 ^ 64) (small' : target < 2 ^ 64) (ht : (target : Int) = z.past + n) :
    z.Law m j target where
  leaves d s t hs moves := by
    induction moves using Relation.ReflTransGen.head_induction_on with
    | refl => exact .inl .refl
    | head move rest ih =>
      obtain stays | exit := move_cases holds closed small small' ht hs move
      · obtain all | ⟨u, v, first, out⟩ := ih stays
        · exact .inl (.head ⟨move, stays⟩ all)
        · exact .inr ⟨u, v, .head ⟨move, stays⟩ first, out⟩
      · exact .inr ⟨_, _, .refl, move, exit, rest⟩
  takes d s t hs runs move := at_of_jump holds ht small' hs runs move
  skips d s t code x hz cond hs runs yes move := at_of_branch holds closed small hz cond hs runs yes move

end Piece

end CZero
