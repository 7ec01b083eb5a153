/-!
# Positions in source text

A position names one character of a source three times over: by line and column for people, and
by its offset for programs. Lines and columns count from 1, offsets from 0, and a character is one
Unicode scalar value. Only line breaks start a new line; every other character, a tab included,
is one column wide.

Lines and columns are counted in 32 bits and wrap around, so they tell the place only in a source
of fewer than `2 ^ 32 - 1` characters.
-/

namespace CZero

/-- A place in source text. -/
structure Position where
  line : UInt32
  column : UInt32
  offset : Nat
deriving DecidableEq

namespace Position

/-- The place of a diagnostic that no source text caused. -/
def nowhere : Position := ⟨0, 0, 0⟩

/-- The first character of a source. -/
def origin : Position := ⟨1, 1, 0⟩

/-- The place `n` characters further on the same line. -/
def advance (p : Position) (n : Nat) : Position :=
  ⟨p.line, p.column + .ofNat n, p.offset + n⟩

/-- The start of the next line, after a line break of `n` characters. -/
def nextLine (p : Position) (n : Nat) : Position :=
  ⟨p.line + 1, 1, p.offset + n⟩

/-- A position as `line:column`. -/
def text (p : Position) : String :=
  s!"{p.line}:{p.column}"

@[simp] theorem advance_zero (p : Position) : p.advance 0 = p := by
  simp [advance]

theorem advance_advance (p : Position) (m n : Nat) :
    (p.advance m).advance n = p.advance (m + n) := by
  simp [advance, UInt32.ofNat_add, UInt32.add_assoc, Nat.add_assoc]

end Position

end CZero
