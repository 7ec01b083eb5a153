import CZero.Proofs.Token.Language
import CZero.Token.Lexer

/-!
# Skipping to the next token

What a scan skips is the longest run of white space and comments. A comment ends before its line break,
which is white space like any other, so only the characters of one line have to be told apart by whether a
comment is open.

    x  // y ⏎ z       two blanks, a comment, a line break and a blank are skipped
     └───────┘
-/

namespace CZero

open Lexical
open scoped Computability

namespace Cursor

variable {b : Bool} {c : Char} {cs v : List Char} {p : Position}

/-! ### What is skipped is trivia -/

theorem cons_mem_trivia (blank : Text.isBlank c) (mem : v ∈ trivia) : c :: v ∈ trivia :=
  append_mem_star (v := [c]) (.inl ⟨c, blank, rfl⟩) mem

theorem not_isLineBreak (feed : c ≠ '\n') (ret : c ≠ '\r') : Text.isLineBreak c = false := by
  rw [Text.isLineBreak, beq_false_of_ne feed, beq_false_of_ne ret, Bool.or_false]

/-- A text is what is skipped of it and what is left. With an open comment, the rest of the line goes first. -/
theorem exists_skipped (b : Bool) (cs : List Char) (p : Position) :
    ∃ v, v ++ (skip b cs p).rest = cs ∧
      if b then ∃ t ∈ trivia, v = cs.takeWhile (!Text.isLineBreak ·) ++ t else v ∈ trivia := by
  -- A line break closes an open comment, and is skipped after it.
  have line {c : Char} {cs v : List Char} (b : Bool) (hc : Text.isLineBreak c) (hv : c :: v ∈ trivia) :
      if b then ∃ t ∈ trivia, c :: v = (c :: cs).takeWhile (!Text.isLineBreak ·) ++ t else c :: v ∈ trivia := by
    cases b with
    | false => exact hv
    | true => exact ⟨c :: v, hv, by simp [hc]⟩
  fun_induction skip b cs p with
  | case1 b p =>
    refine ⟨[], rfl, ?_⟩
    cases b with
    | false => exact Language.nil_mem_kstar _
    | true => exact ⟨[], Language.nil_mem_kstar _, rfl⟩
  | case2 b cs p ih =>
    obtain ⟨v, split, hv⟩ := ih
    exact ⟨'\n' :: v, congrArg _ split, line b rfl (cons_mem_trivia rfl hv)⟩
  | case3 b cs p ih =>
    obtain ⟨v, split, hv⟩ := ih
    exact ⟨'\r' :: '\n' :: v, congrArg (fun t => '\r' :: '\n' :: t) split,
      line b rfl (cons_mem_trivia rfl (cons_mem_trivia rfl hv))⟩
  | case4 b cs p _ ih =>
    obtain ⟨v, split, hv⟩ := ih
    exact ⟨'\r' :: v, congrArg _ split, line b rfl (cons_mem_trivia rfl hv)⟩
  | case5 b c cs p feed _ ret skipped ih =>
    obtain ⟨v, split, hv⟩ := ih
    refine ⟨c :: v, congrArg _ split, ?_⟩
    cases b with
    | false => exact cons_mem_trivia skipped hv
    | true =>
      obtain ⟨t, ht, rfl⟩ := hv
      exact ⟨t, ht, by simp [not_isLineBreak feed ret]⟩
  | case6 b c cs p _ _ _ skipped opens ih =>
    obtain ⟨v, split, t, ht, rfl⟩ := ih
    obtain ⟨rfl, slash⟩ : c = '/' ∧ cs.head? = some '/' := by simpa using opens
    obtain rfl : b = false := by simp_all
    obtain ⟨cs, rfl⟩ := List.head?_eq_some_iff.1 slash
    refine ⟨'/' :: (('/' :: cs).takeWhile (!Text.isLineBreak ·) ++ t), congrArg ('/' :: ·) split, ?_⟩
    have body : cs.takeWhile (!Text.isLineBreak ·) ∈ (one fun c => !Text.isLineBreak c)∗ :=
      mem_star_one.2 (List.all_eq_true.1 List.all_takeWhile)
    have opened : ('/' :: cs).takeWhile (!Text.isLineBreak ·) = '/' :: cs.takeWhile (!Text.isLineBreak ·) := rfl
    rw [opened]
    exact append_mem_star (.inr (Language.append_mem_mul (a := ['/', '/']) rfl body)) ht
  | case7 b c cs p _ _ _ skipped _ =>
    obtain rfl : b = false := by simp_all
    exact ⟨[], rfl, Language.nil_mem_kstar _⟩

/-! ### All trivia is skipped -/

/-- A character that is skipped; line breaks close an open comment. The place is left open, as a line break
of two characters is skipped in one step. -/
theorem skip_cons (h : b || Text.isBlank c) (cs : List Char) (p : Position) :
    ∃ q, skip b (c :: cs) p = skip (b && !Text.isLineBreak c) cs q := by
  by_cases feed : c = '\n'
  · subst feed
    exact ⟨p.nextLine 1, by simp [skip, Text.isLineBreak]⟩
  by_cases ret : c = '\r'
  · subst ret
    by_cases pair : ∃ rest, cs = '\n' :: rest
    · obtain ⟨rest, rfl⟩ := pair
      exact ⟨p.advance 1, by simp [skip, Text.isLineBreak, Position.nextLine, Position.advance]⟩
    · refine ⟨p.nextLine 1, ?_⟩
      rw [skip]
      · simp [Text.isLineBreak]
      · exact fun rest eq => pair ⟨rest, eq⟩
  · refine ⟨p.advance 1, ?_⟩
    rw [skip]
    · simp [h, not_isLineBreak feed ret]
    all_goals grind

theorem skip_slashes (b : Bool) (cs : List Char) (p : Position) :
    ∃ q, skip b ('/' :: '/' :: cs) p = skip true cs q := by
  have opened (p : Position) : skip true ('/' :: cs) p = skip true cs (p.advance 1) := by
    rw [skip]
    · rfl
    all_goals grind
  refine ⟨(p.advance 1).advance 1, ?_⟩
  rw [← opened]
  rw [skip]
  · cases b <;> rfl
  all_goals grind

theorem skip_line (inLine : ∀ c ∈ v, Text.isLineBreak c = false) (cs : List Char) (p : Position) :
    ∃ q, skip true (v ++ cs) p = skip true cs q := by
  induction v generalizing p with
  | nil => exact ⟨p, rfl⟩
  | cons c v ih =>
    obtain ⟨other, inLine⟩ := List.forall_mem_cons.1 inLine
    obtain ⟨q, first⟩ := skip_cons (b := true) (c := c) rfl (v ++ cs) p
    rw [List.cons_append, first, other]
    exact ih inLine q

theorem skip_of_mem_comment (mem : v ∈ comment) (b : Bool) (cs : List Char) (p : Position) :
    ∃ q, skip b (v ++ cs) p = skip true cs q := by
  obtain ⟨_, rfl, body, inLine, rfl⟩ := mem
  obtain ⟨q, opened⟩ := skip_slashes b (body ++ cs) p
  obtain ⟨q, skipped⟩ := skip_line (by simpa using mem_star_one.1 inLine) cs q
  have text : ("//".toList ++ body) ++ cs = '/' :: '/' :: (body ++ cs) := by simp
  exact ⟨q, by rw [text, opened, skipped]⟩

/-- Trivia is skipped as a whole, though a comment at its end may be open then. -/
theorem skip_trivia (mem : v ∈ trivia) (b : Bool) (cs : List Char) (p : Position) :
    ∃ b' q, skip b (v ++ cs) p = skip b' cs q := by
  obtain ⟨parts, rfl, each⟩ := Language.mem_kstar.1 mem
  clear mem
  induction parts generalizing b p with
  | nil => exact ⟨b, p, rfl⟩
  | cons part parts ih =>
    obtain ⟨first, others⟩ := List.forall_mem_cons.1 each
    rw [List.flatten_cons, List.append_assoc]
    rcases first with ⟨c, blank, rfl⟩ | mem
    · obtain ⟨q, skipped⟩ := skip_cons (b := b) (c := c) (by simp [blank]) (parts.flatten ++ cs) p
      rw [List.singleton_append, skipped]
      exact ih _ q others
    · obtain ⟨q, skipped⟩ := skip_of_mem_comment mem b (parts.flatten ++ cs) p
      rw [skipped]
      exact ih _ q others

/-- The longest run of white space and comments is skipped. -/
theorem longestMatch_skip (cs : List Char) (p : Position) :
    ∃ v, v ++ (skip false cs p).rest = cs ∧ LongestMatch trivia cs v := by
  obtain ⟨v, split, mem⟩ := exists_skipped false cs p
  refine ⟨v, split, ⟨_, split⟩, mem, fun w pre mem' => ?_⟩
  obtain ⟨rest, rfl⟩ := pre
  obtain ⟨b, q, skipped⟩ := skip_trivia mem' false rest p
  have le := skip_length_le b rest q
  have lengths := congrArg List.length split
  rw [List.length_append, List.length_append, skipped] at lengths
  omega

/-! ### Cursors in a text -/

/-- A cursor in a text: it has the rest of the text from its offset on. -/
structure In (chars : List Char) (c : Cursor) : Prop where
  isSuffix : c.rest <:+ chars
  offset_add : c.position.offset + c.rest.length = chars.length

theorem offset_skip_add (b : Bool) (cs : List Char) (p : Position) :
    (skip b cs p).position.offset + (skip b cs p).rest.length = p.offset + cs.length := by
  fun_induction skip b cs p <;> simp_all [Position.advance, Position.nextLine] <;> omega

namespace In

variable {chars : List Char} {c c' : Cursor}

theorem ofSource (source : String) : In source.toList (.ofSource source) :=
  ⟨List.suffix_refl _, Nat.zero_add _⟩

theorem rest_eq (h : In chars c) : c.rest = chars.drop c.position.offset := by
  rw [List.suffix_iff_eq_drop.1 h.isSuffix]
  congr 1
  have := h.offset_add
  omega

theorem skipBlanks (h : In chars c) : In chars c.skipBlanks where
  isSuffix := by
    obtain ⟨v, split, -⟩ := exists_skipped false c.rest c.position
    exact List.IsSuffix.trans ⟨v, split⟩ h.isSuffix
  offset_add := (offset_skip_add false c.rest c.position).trans h.offset_add

theorem advance (h : In chars c) {n : Nat} (le : n ≤ c.rest.length) : In chars (c.advance n) where
  isSuffix := (List.drop_suffix n c.rest).trans h.isSuffix
  offset_add := by
    have := h.offset_add
    simp only [Cursor.advance, Position.advance, List.length_drop]
    omega

/-- The text between two cursors. -/
theorem extract_eq (h : In chars c) (h' : In chars c') {v : List Char} (split : v ++ c'.rest = c.rest) :
    chars.extract c.position.offset c'.position.offset = v := by
  have lengths := congrArg List.length split
  rw [List.length_append] at lengths
  have := h.offset_add
  have := h'.offset_add
  rw [List.extract, ← h.rest_eq, ← split]
  exact List.take_left' (by omega)

end In

end Cursor

end CZero
