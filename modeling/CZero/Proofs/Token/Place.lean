import CZero.Proofs.Lowering.Lexical
import CZero.Proofs.Token.Longest
import Mathlib.Data.Nat.Count
import Mathlib.Data.Nat.Find

/-!
# Places in a source

Line, column and offset of a position are counted apart by the scanner. Here the offset alone tells the
place: its line is the number of lines that start up to it, and its column is its distance from the start of
the last of them. A line starts behind `\n`, behind `\r\n`, and behind `\r` that no `\n` follows. The scanner
counts in 32 bits, which is enough for a source of fewer than `2 ^ 32 - 1` characters.

    offset    0   1   2   3   4   5   6
              a  \r  \n   b  \r   c
    starts    ^           ^       ^            lines 1, 2, 3; offset 6 is the end of the source

Every position that is reported is the place of its offset: of tokens, of the fault that ends the stream of
tokens, and of every diagnostic of the compiler. Only trivia has line breaks, and skipping it counts them; a
token, and what is read of a literal before a wrong escape, is on one line. What a scan takes when it fails
can hold a line break, but nothing is reported of a source behind its first fault.
-/

namespace CZero

open Lexical

/-! ### Lines -/

/-- Whether a line starts at this offset. -/
def startsLine (chars : List Char) : Nat → Bool
  | 0 => true
  | i + 1 => chars[i]? == some '\n' || chars[i]? == some '\r' && chars[i + 1]? != some '\n'

/-- The line of an offset. -/
def lineAt (chars : List Char) (o : Nat) : Nat :=
  Nat.count (startsLine chars ·) (o + 1)

/-- The column of an offset. -/
def columnAt (chars : List Char) (o : Nat) : Nat :=
  o - Nat.findGreatest (startsLine chars ·) o + 1

example : (List.range 7).map (fun o => (lineAt "a\r\nb\rc".toList o, columnAt "a\r\nb\rc".toList o)) =
    [(1, 1), (1, 2), (1, 3), (2, 1), (2, 2), (3, 1), (3, 2)] := by decide

/-- A position in a text: an offset that is not behind its end, with the line and column of that offset. -/
structure Position.IsIn (chars : List Char) (p : Position) : Prop where
  offset_le : p.offset ≤ chars.length
  line_eq : p.line.toNat = lineAt chars p.offset
  column_eq : p.column.toNat = columnAt chars p.offset

/-- The place of an offset, with what 32 bits hold of its line and column. -/
def place (chars : List Char) (o : Nat) : Position :=
  ⟨.ofNat (lineAt chars o), .ofNat (columnAt chars o), o⟩

variable {chars cs : List Char} {c : Char} {o : Nat}

theorem lineAt_le (chars : List Char) (o : Nat) : lineAt chars o ≤ o + 1 :=
  Nat.count_le _

theorem columnAt_le (chars : List Char) (o : Nat) : columnAt chars o ≤ o + 1 :=
  Nat.add_le_add_right (Nat.sub_le _ _) 1

/-- In a short text 32 bits hold every line and column. -/
theorem place_isIn (short : chars.length + 1 < 2 ^ 32) (le : o ≤ chars.length) : (place chars o).IsIn chars := by
  have line := lineAt_le chars o
  have column := columnAt_le chars o
  exact ⟨le, UInt32.toNat_ofNat_of_lt' (by simp only [UInt32.size]; omega),
    UInt32.toNat_ofNat_of_lt' (by simp only [UInt32.size]; omega)⟩

theorem place_zero (chars : List Char) : place chars 0 = .origin := by
  simp [place, lineAt, columnAt, Nat.count_succ, startsLine, Position.origin]

theorem place_of_startsLine (h : startsLine chars (o + 1)) : place chars (o + 1) = (place chars o).nextLine 1 := by
  have line : lineAt chars (o + 1) = lineAt chars o + 1 := by
    rw [lineAt, Nat.count_succ, if_pos h]
    rfl
  have column : columnAt chars (o + 1) = 1 := by
    rw [columnAt, Nat.findGreatest_eq h, Nat.sub_self]
  rw [place, line, column, UInt32.ofNat_add]
  rfl

theorem place_of_not_startsLine (h : startsLine chars (o + 1) = false) :
    place chars (o + 1) = (place chars o).advance 1 := by
  have no : ¬(startsLine chars (o + 1) : Prop) := by simp [h]
  have le := Nat.findGreatest_le (P := (startsLine chars ·)) o
  have line : lineAt chars (o + 1) = lineAt chars o := by
    rw [lineAt, Nat.count_succ, if_neg no]
    rfl
  have column : columnAt chars (o + 1) = columnAt chars o + 1 := by
    rw [columnAt, columnAt, Nat.findGreatest_of_not no]
    omega
  rw [place, line, column, UInt32.ofNat_add]
  rfl

/-- A line starts behind a character that ends one. -/
theorem startsLine_of_drop (h : chars.drop o = c :: cs) :
    startsLine chars (o + 1) = (c == '\n' || c == '\r' && cs.head? != some '\n') := by
  have first : chars[o]? = some c := by
    rw [← List.head?_drop, h]
    rfl
  have second : chars[o + 1]? = cs.head? := by
    rw [← List.head?_drop, ← List.drop_drop, h]
    rfl
  rw [startsLine, first, second]
  rfl

/-! ### Cursors at their place -/

namespace Cursor

/-- A cursor in a text whose position is the place of its offset. -/
structure Placed (chars : List Char) (c : Cursor) : Prop extends In chars c where
  place_eq : place chars c.position.offset = c.position

namespace Placed

variable {p : Position}

theorem isIn {c : Cursor} (h : Placed chars c) (short : chars.length + 1 < 2 ^ 32) : c.position.IsIn chars :=
  h.place_eq ▸ place_isIn short (Nat.le.intro h.offset_add)

theorem ofSource (source : String) : Placed source.toList (.ofSource source) :=
  ⟨.ofSource source, place_zero _⟩

theorem behind (h : Placed chars ⟨c :: cs, p⟩) : Placed chars ⟨cs, place chars (p.offset + 1)⟩ where
  isSuffix := (List.suffix_cons c cs).trans h.isSuffix
  offset_add := by
    have := h.offset_add
    simp only [List.length_cons] at this
    simp only [place]
    omega
  place_eq := rfl

/-- The next character ends its line. -/
theorem nextLine (h : Placed chars ⟨c :: cs, p⟩)
    (ends : (c == '\n' || c == '\r' && cs.head? != some '\n') = true) : Placed chars ⟨cs, p.nextLine 1⟩ := by
  have next := h.behind
  rwa [place_of_startsLine ((startsLine_of_drop h.rest_eq.symm).trans ends), h.place_eq] at next

/-- The next character does not end its line. -/
theorem step (h : Placed chars ⟨c :: cs, p⟩)
    (inLine : (c == '\n' || c == '\r' && cs.head? != some '\n') = false) : Placed chars ⟨cs, p.advance 1⟩ := by
  have next := h.behind
  rwa [place_of_not_startsLine ((startsLine_of_drop h.rest_eq.symm).trans inLine), h.place_eq] at next

theorem stay (h : Placed chars ⟨c :: cs, p⟩) (inLine : Text.isLineBreak c = false) :
    Placed chars ⟨cs, p.advance 1⟩ := by
  obtain ⟨feed, ret⟩ := Bool.or_eq_false_iff.1 inLine
  exact h.step (by rw [feed, ret]; rfl)

/-- Lines and columns of what is skipped are counted. -/
theorem skip (b : Bool) (h : Placed chars ⟨cs, p⟩) : Placed chars (Cursor.skip b cs p) := by
  fun_induction Cursor.skip b cs p with
  | case1 => exact h
  | case2 b cs p ih => exact ih (h.nextLine rfl)
  | case3 b cs p ih => exact ih ((h.step rfl).nextLine rfl)
  | case4 b cs p other ih =>
    refine ih (h.nextLine ?_)
    cases cs with
    | nil => rfl
    | cons d cs =>
      have ne : d ≠ '\n' := fun eq => other cs (eq ▸ rfl)
      simp [ne]
  | case5 b c cs p feed _ ret _ ih => exact ih (h.stay (not_isLineBreak feed ret))
  | case6 b c cs p feed _ ret _ _ ih => exact ih (h.stay (not_isLineBreak feed ret))
  | case7 => exact h

/-- A cursor moves along its line. -/
theorem advance (h : Placed chars ⟨cs, p⟩) {w : List Char} (pre : w <+: cs)
    (inLine : ∀ c ∈ w, Text.isLineBreak c = false) :
    Placed chars (Cursor.advance ⟨cs, p⟩ w.length) := by
  obtain ⟨rest, rfl⟩ := pre
  induction w generalizing p with
  | nil => simpa [Cursor.advance] using h
  | cons c w ih =>
    obtain ⟨other, others⟩ := List.forall_mem_cons.1 inLine
    have first : Placed chars ⟨c :: (w ++ rest), p⟩ := h
    have next := ih others (first.stay other)
    rwa [Cursor.advance, Position.advance_advance, Nat.add_comm 1] at next

end Placed

end Cursor

/-! ### Tokens are on one line -/

theorem Scan.not_isLineBreak_of_isWordPart (h : isWordPart c) : Text.isLineBreak c = false := by
  refine Cursor.not_isLineBreak ?_ ?_
  all_goals
    rintro rfl
    revert h
    decide

/-- Only trivia has line breaks. -/
theorem Kind.not_isLineBreak {k : Kind} {w : List Char} (mem : w ∈ k.language) :
    ∀ c ∈ w, Text.isLineBreak c = false := by
  have ofWord {w : List Char} (mem : w ∈ word) : ∀ c ∈ w, Text.isLineBreak c = false :=
    fun c hc => Scan.not_isLineBreak_of_isWordPart (Scan.forall_isWordPart mem c hc)
  have ofDigits {w : List Char} (mem : w ∈ digits) : ∀ c ∈ w, Text.isLineBreak c = false :=
    fun c hc => Scan.not_isLineBreak_of_isWordPart (Scan.isWordPart_of_isDigit ((mem_digits.1 mem).2 c hc))
  have ofExponent {w : List Char} {e : Int} (h : Exponent w e) : ∀ c ∈ w, Text.isLineBreak c = false := by
    have mark {m : Char} (h : m = 'e' ∨ m = 'E') : Text.isLineBreak m = false := by
      rcases h with rfl | rfl <;> rfl
    cases h with
    | none => exact nofun
    | plain m ds => exact List.forall_mem_cons.2 ⟨mark m, ofDigits ds⟩
    | plus m ds | minus m ds => exact List.forall_mem_cons.2 ⟨mark m, List.forall_mem_cons.2 ⟨rfl, ofDigits ds⟩⟩
  have quoted {q : Char} {body t : List Char} (quote : Text.isLineBreak q = false) (h : Resolves q body t) :
      ∀ c ∈ q :: body ++ [q], Text.isLineBreak c = false := by
    simp only [List.cons_append, List.forall_mem_cons, List.forall_mem_append]
    exact ⟨quote, h.not_isLineBreak, quote, nofun⟩
  cases k with
  | ident => exact ofWord mem.1
  | keyword k =>
    obtain rfl : w = _ := mem
    exact ofWord k.spelling_mem_word
  | uint => exact ofDigits mem
  | double =>
    obtain ⟨whole, fraction, mark, e, rfl, whole, fraction, mark⟩ := mem_double.1 mem
    simp only [List.forall_mem_append, List.forall_mem_cons]
    exact ⟨ofDigits whole, rfl, ofDigits fraction, ofExponent mark⟩
  | string =>
    obtain ⟨body, t, rfl, resolves⟩ := mem_string.1 mem
    exact quoted rfl resolves
  | char =>
    obtain ⟨body, c, rfl, resolves⟩ := mem_char.1 mem
    exact quoted rfl resolves
  | punct p =>
    obtain rfl : w = _ := mem
    have all : p.spelling.toList.all (!Text.isLineBreak ·) := by cases p <;> rfl
    simpa using all

/-! ### One scan -/

namespace Cursor

theorem placed_skipBlanks {c : Cursor} (h : Placed chars c) : Placed chars c.skipBlanks :=
  h.skip false

/-- What is skipped before a scan is trivia. -/
theorem In.extract_mem_trivia {c : Cursor} (h : In chars c) :
    c.position.offset ≤ c.skipBlanks.position.offset ∧
      chars.extract c.position.offset c.skipBlanks.position.offset ∈ trivia := by
  obtain ⟨v, split, longest⟩ := longestMatch_skip c.rest c.position
  rw [h.extract_eq h.skipBlanks split]
  exact ⟨offset_le_skip _ _ _, longest.mem⟩

/-- What one scan of a text can do. -/
inductive Scans (chars : List Char) (c : Cursor) : Except Diagnostic Token × Cursor → Prop
  | token {t : Token} {after : Cursor} : t.lexeme ≠ .endOfFile → t.start = c.skipBlanks.position →
    t.stop = after.position → t.start.offset < t.stop.offset → Placed chars after → Scans chars c (.ok t, after)
  | done {after : Cursor} : c.skipBlanks.position.offset = chars.length →
    Scans chars c (.ok ⟨.endOfFile, c.skipBlanks.position, c.skipBlanks.position⟩, after)
  | fault {d : Diagnostic} {after : Cursor} : d.position.IsIn chars → Scans chars c (.error d, after)

theorem Placed.scans {c : Cursor} (h : Placed chars c) (short : chars.length + 1 < 2 ^ 32) :
    Scans chars c c.scan := by
  have placed := placed_skipBlanks h
  cases eq : c.skipBlanks.rest with
  | nil =>
    rw [scan_of_nil eq]
    refine .done ?_
    rw [← placed.offset_add, eq]
    rfl
  | cons ch cs =>
    have finds := Scan.finds_lexeme ch cs
    have pos := Scan.lexeme_length_pos ch cs
    have along {w : List Char} (pre : w <+: ch :: cs) (inLine : ∀ c ∈ w, Text.isLineBreak c = false) :
        Placed chars (c.skipBlanks.advance w.length) :=
      placed.advance (eq ▸ pre) inLine
    rw [scan_of_cons eq]
    generalize Scan.lexeme ch cs = found at finds pos ⊢
    cases finds with
    | @token k l w kind mem means longest =>
      refine .token ?_ rfl rfl (Nat.lt_add_of_pos_right pos) (along longest.isPrefix (Kind.not_isLineBreak mem))
      rintro (rfl : l = _)
      exact means
    | tooLarge => exact .fault ((Position.advance_zero _).symm ▸ placed.isIn short)
    | @badEscape before rest e n split inLine =>
      exact .fault ((along ⟨e :: rest, split.symm⟩ inLine).isIn short)
    | nothing => exact .fault ((Position.advance_zero _).symm ▸ placed.isIn short)

end Cursor

end CZero
