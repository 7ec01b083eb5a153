import CZero.Proofs.Lowering.Lexical
import CZero.Proofs.Token.Longest

/-!
# Tokens as text

Every token but a double has one canonical spelling. Integers are written in decimal; between quotes, both
quotes, the backslash and the three characters with a name are escaped, and all others stand for themselves.
Tokens that are written one behind the other, with a separator between each two, are scanned as they were
written, whatever text the literals hold.

    x  "a⏎\"  /            tokens; the text of the string has a line break and a backslash
    x "a\n\\"⇥/            written with a blank and a tabulator between them

A separator starts with white space, as `/` and a comment would read as a longer comment, and it closes its
comments, as the next token would be part of one that is open.
-/

namespace CZero

open Lexical
open scoped Computability

/-! ### Spellings -/

namespace Lexical

/-- How a character is written between quotes. -/
def escape (c : Char) : List Char :=
  match escapes.find? (·.2 == c) with
  | some (e, _) => ['\\', e]
  | none => [c]

/-- White space, and comments with the ends of their lines. -/
def spacing : Language Char :=
  (one Text.isBlank + comment * one Text.isLineBreak)∗

/-- What separates two tokens. -/
def separator : Language Char :=
  one Text.isBlank * spacing

end Lexical

namespace Lexeme

/-- The lexemes that can be written. -/
def IsPrintable : Lexeme → Prop
  | .ident name => name.toList ∈ word ∧ ∀ k : Keyword, name ≠ k.spelling
  | .double _ | .endOfFile => False
  | .uint _ | .string _ | .char _ | .keyword _ | .punct _ => True

/-- The canonical spelling of a lexeme. -/
def spell : Lexeme → List Char
  | .ident name => name.toList
  | .uint value => Nat.toDigits 10 value.toNat
  | .string text => '\"' :: text.toList.flatMap escape ++ ['\"']
  | .char c => '\'' :: escape c ++ ['\'']
  | .keyword k => k.spelling.toList
  | .punct p => p.spelling.toList
  | .double _ | .endOfFile => []

end Lexeme

/-- A written character resolves to the character. -/
theorem Lexical.resolves_escape {quote : Char} (quotes : quote = '\"' ∨ quote = '\'') (c : Char) :
    Resolves quote (escape c) [c] := by
  unfold escape
  split
  · next e d found =>
    obtain rfl : d = c := by simpa using List.find?_some found
    exact .escape (List.mem_of_find?_eq_some found) .nil
  · next none =>
    have other {x : Char × Char} (mem : x ∈ escapes) : c ≠ x.2 := by
      rintro rfl
      simpa using List.find?_eq_none.1 none x mem
    have plain : c ≠ quote := by
      rcases quotes with rfl | rfl
      · exact other (x := ('\"', '\"')) (by decide)
      · exact other (x := ('\'', '\'')) (by decide)
    have feed : c ≠ '\n' := other (x := ('n', '\n')) (by decide)
    have ret : c ≠ '\r' := other (x := ('r', '\r')) (by decide)
    have backslash : c ≠ '\\' := other (x := ('\\', '\\')) (by decide)
    exact .plain (isPlain_iff.2 ⟨plain, backslash, Cursor.not_isLineBreak feed ret⟩) .nil

theorem Lexical.resolves_flatMap_escape {quote : Char} (quotes : quote = '\"' ∨ quote = '\'') (t : List Char) :
    Resolves quote (t.flatMap escape) t := by
  induction t with
  | nil => exact .nil
  | cons c t ih => exact (resolves_escape quotes c).append ih

/-! ### One token and what follows -/

namespace Scan

variable {c : Char} {cs w rest : List Char} {l : Lexeme}

/-- White space is no part of a word. -/
theorem not_isWordPart_of_isBlank (h : Text.isBlank c) : isWordPart c = false := by
  have range (part : isWordPart c) : 48 ≤ c.toNat ∧ c.toNat ≤ 122 := by
    simp only [isWordPart, Char.isAlphanum, Bool.or_eq_true, beq_iff_eq] at part
    rcases part with (alpha | digit) | rfl
    · have := toNat_of_isAlpha alpha
      omega
    · have := toNat_of_isDigit digit
      omega
    · decide
  refine Bool.eq_false_iff.2 fun part => ?_
  have := range part
  simp only [Text.isBlank, Bool.or_eq_true, Bool.and_eq_true, decide_eq_true_eq, beq_iff_eq] at h
  omega

theorem takeWhile_spelled {p : Char → Bool} (all : ∀ c ∈ w, p c) (part : ∀ c, p c → isWordPart c)
    (ends : ∀ c ∈ rest.head?, Text.isBlank c) : (w ++ rest).takeWhile p = w := by
  cases rest with
  | nil => rw [List.takeWhile_append_of_pos all, List.takeWhile_nil, List.append_nil]
  | cons c rest =>
    have blank := not_isWordPart_of_isBlank (ends c rfl)
    exact takeWhile_append_cons all (Bool.eq_false_iff.2 fun h => by simp [part c h] at blank) rest

/-- A scan of the text reads the lexeme of spelling `w`, and skips nothing before it. -/
def Reads (l : Lexeme) (w rest : List Char) : Prop :=
  ∃ c cs, w ++ rest = c :: cs ∧ Text.isBlank c = false ∧ (c == '/' && cs.head? == some '/') = false ∧
    lexeme c cs = accept l w.length

theorem punct?_eq_none (no : ∀ p : Punct, p.spelling.toList.head? ≠ some c) : punct? (c :: cs) = none := by
  cases h : punct? (c :: cs) with
  | none => rfl
  | some found =>
    obtain ⟨pre, -⟩ := punct?_eq_some h
    exact absurd (Kind.startsWith_of_prefix (k := .punct found.1) rfl pre) (no found.1)

theorem lexeme_of_isDigit (digit : c.isDigit) : lexeme c cs = number (c :: cs) := by
  have none : punct? (c :: cs) = none :=
    punct?_eq_none fun p head => by simp [(Punct.not_of_head head).2.1] at digit
  have quote : c ≠ '\"' := by rintro rfl; cases digit
  have quote' : c ≠ '\'' := by rintro rfl; cases digit
  rw [lexeme, none]
  simp only [quote, quote', digit, if_true, if_false]

theorem lexeme_of_isWordStart (start : isWordStart c) : lexeme c cs = Scan.word (c :: cs) := by
  have none : punct? (c :: cs) = none :=
    punct?_eq_none fun p head => by simp [(Punct.not_of_head head).1] at start
  have quote : c ≠ '\"' := by rintro rfl; cases start
  have quote' : c ≠ '\'' := by rintro rfl; cases start
  rw [lexeme, none]
  simp [quote, quote', not_isDigit_of_isWordStart start, start]

theorem reads_of_isWordPart (part : isWordPart c) (found : lexeme c (w ++ rest) = accept l (w.length + 1)) :
    Reads l (c :: w) rest := by
  refine ⟨c, w ++ rest, rfl, ?_, ?_, found⟩
  · exact Bool.eq_false_iff.2 fun blank => by simp [not_isWordPart_of_isBlank blank] at part
  · have other : c ≠ '/' := by rintro rfl; cases part
    simp [other]

theorem reads_word (mem : w ∈ Lexical.word) (ends : ∀ c ∈ rest.head?, Text.isBlank c)
    (means : (match Keyword.ofSpelling? (String.ofList w) with
      | some k => Lexeme.keyword k
      | none => .ident (String.ofList w)) = l) : Reads l w rest := by
  have taken : (w ++ rest).takeWhile isWordPart = w := takeWhile_spelled (forall_isWordPart mem) (fun _ => id) ends
  obtain ⟨c, w, rfl, start, -⟩ := mem_plus.1 mem
  refine reads_of_isWordPart (isWordPart_of_isWordStart start) ?_
  rw [lexeme_of_isWordStart start, Scan.word, ← List.cons_append, taken]
  subst means
  cases Keyword.ofSpelling? (String.ofList (c :: w)) <;> rfl

theorem reads_uint (value : UInt64) (ends : ∀ c ∈ rest.head?, Text.isBlank c) :
    Reads (.uint value) (Nat.toDigits 10 value.toNat) rest := by
  have all : ∀ c ∈ Nat.toDigits 10 value.toNat, c.isDigit :=
    fun c => Nat.isDigit_of_mem_toDigits (by decide) (by decide)
  have number_eq : Decimal.ofDigits (Nat.toDigits 10 value.toNat) = value.toNat :=
    Nat.ofDigitChars_toDigits (by decide) (by decide)
  have taken := takeWhile_spelled all (fun _ => isWordPart_of_isDigit) ends
  have small : value.toNat < UInt64.size := value.toNat_lt
  have integer : number (Nat.toDigits 10 value.toNat ++ rest)
      = accept (.uint value) (Nat.toDigits 10 value.toNat).length := by
    rw [number, taken, List.drop_left]
    split
    · cases ends '.' rfl
    · rw [number.integer, number_eq, if_pos small, UInt64.ofNat_toNat]
  obtain ⟨c, w, eq⟩ := List.exists_cons_of_ne_nil (Nat.toDigits_ne_nil (b := 10) (n := value.toNat))
  rw [eq] at all integer ⊢
  obtain ⟨digit, -⟩ := List.forall_mem_cons.1 all
  exact reads_of_isWordPart (isWordPart_of_isDigit digit) ((lexeme_of_isDigit digit).trans integer)

theorem reads_string (text : String) (rest : List Char) :
    Reads (.string text) ('\"' :: text.toList.flatMap escape ++ ['\"']) rest := by
  refine ⟨'\"', text.toList.flatMap escape ++ '\"' :: rest, by simp, rfl, rfl, ?_⟩
  have body := stringBody_of_resolves (resolves_flatMap_escape (.inl rfl) text.toList) 1 rest
  have scanned (cs : List Char) : lexeme '\"' cs = stringTail cs := rfl
  rw [scanned, stringTail, body]
  simp [accept, Except.map, Nat.add_comm]

theorem reads_char (c : Char) (rest : List Char) : Reads (.char c) ('\'' :: escape c ++ ['\'']) rest := by
  refine ⟨'\'', escape c ++ '\'' :: rest, by simp, rfl, rfl, ?_⟩
  have scanned (cs : List Char) : lexeme '\'' cs = charTail cs := rfl
  rw [scanned, charTail_of_resolves (resolves_escape (.inr rfl) c)]
  simp

theorem lexeme_of_punct {p : Punct} {n : Nat} (h : punct? (c :: cs) = some (p, n)) :
    lexeme c cs = accept (.punct p) n := by
  rw [lexeme, h]

theorem reads_punct (p : Punct) (ends : ∀ c ∈ rest.head?, Text.isBlank c) :
    Reads (.punct p) p.spelling.toList rest := by
  cases rest with
  | nil => cases p <;> exact ⟨_, _, rfl, rfl, rfl, rfl⟩
  | cons d rest =>
    have blank := ends d rfl
    have equals : d ≠ '=' := by rintro rfl; cases blank
    have greater : d ≠ '>' := by rintro rfl; cases blank
    have slash : d ≠ '/' := by rintro rfl; cases blank
    have found : punct? (p.spelling.toList ++ d :: rest) = some (p, p.spelling.toList.length) := by
      cases p
      case minus | assign | lt | gt => simp [Punct.spelling, punct?, equals, greater]
      all_goals rfl
    cases p
    case slash => exact ⟨_, _, rfl, rfl, by simp [slash], lexeme_of_punct found⟩
    all_goals exact ⟨_, _, rfl, rfl, rfl, lexeme_of_punct found⟩

/-- A scan reads a token that is written, if the end of the text or white space follows. -/
theorem reads_spell (printable : l.IsPrintable) (ends : ∀ c ∈ rest.head?, Text.isBlank c) :
    Reads l l.spell rest := by
  cases l with
  | ident name =>
    obtain ⟨mem, no⟩ := printable
    refine reads_word mem ends ?_
    rw [Lexeme.spell, String.ofList_toList]
    cases found : Keyword.ofSpelling? name with
    | none => rfl
    | some k => exact absurd (ofSpelling?_eq_some found).symm (no k)
  | keyword k =>
    refine reads_word k.spelling_mem_word ends ?_
    rw [Lexeme.spell, String.ofList_toList]
    cases k <;> rfl
  | uint value => exact reads_uint value ends
  | string text => exact reads_string text rest
  | char c => exact reads_char c rest
  | punct p => exact reads_punct p ends
  | double | endOfFile => exact printable.elim

end Scan

/-! ### Rows of tokens -/

namespace Cursor

/-- White space and comments are skipped, and no comment is left open. -/
theorem skip_spacing {sep : List Char} (mem : sep ∈ spacing) (cs : List Char) (p : Position) :
    ∃ q, skip false (sep ++ cs) p = skip false cs q := by
  obtain ⟨parts, rfl, each⟩ := Language.mem_kstar.1 mem
  clear mem
  induction parts generalizing p with
  | nil => exact ⟨p, rfl⟩
  | cons part parts ih =>
    obtain ⟨first, others⟩ := List.forall_mem_cons.1 each
    rw [List.flatten_cons, List.append_assoc]
    rcases first with ⟨c, blank, rfl⟩ | ⟨_, opened, _, ⟨c, line, rfl⟩, rfl⟩
    · obtain ⟨q, skipped⟩ := skip_cons (b := false) (c := c) blank (parts.flatten ++ cs) p
      rw [List.singleton_append, skipped]
      exact ih q others
    · obtain ⟨q, skipped⟩ := skip_of_mem_comment opened false (c :: (parts.flatten ++ cs)) p
      obtain ⟨q, closed⟩ := skip_cons (b := true) (c := c) rfl (parts.flatten ++ cs) q
      dsimp only
      rw [List.append_assoc, List.singleton_append, skipped, closed, line]
      exact ih q others

/-- Nothing is skipped before a token. -/
theorem skip_of_reads {l : Lexeme} {w rest : List Char} (h : Scan.Reads l w rest) (p : Position) :
    skip false (w ++ rest) p = ⟨w ++ rest, p⟩ := by
  obtain ⟨c, cs, eq, blank, comment, -⟩ := h
  rw [eq, skip]
  · simp only [Bool.false_or, blank, comment]
    rfl
  all_goals
    intros
    subst_vars
    cases blank

theorem scan_of_reads {c : Cursor} {l : Lexeme} {w rest : List Char} (h : Scan.Reads l w rest)
    (here : c.skipBlanks.rest = w ++ rest) :
    ∃ p q, c.scan = (.ok ⟨l, p, q⟩, ⟨rest, q⟩) := by
  obtain ⟨ch, cs, eq, -, -, found⟩ := h
  rw [scan_of_cons (here.trans eq), found]
  refine ⟨_, _, Prod.ext rfl ?_⟩
  have left : (w ++ rest).drop w.length = rest := List.drop_left
  rw [← here] at left
  exact congrArg (Cursor.mk · _) left

end Cursor

namespace Lexical

/-- What a separator starts with. -/
theorem head_separator {sep : List Char} (mem : sep ∈ separator) : ∃ c t, sep = c :: t ∧ Text.isBlank c := by
  obtain ⟨_, ⟨c, blank, rfl⟩, t, -, rfl⟩ := mem
  exact ⟨c, t, rfl, blank⟩

theorem spacing_of_separator {sep : List Char} (mem : sep ∈ 1 + separator) : sep ∈ spacing := by
  rcases mem with rfl | ⟨_, blank, t, spaced, rfl⟩
  · exact Language.nil_mem_kstar _
  · exact append_mem_star (.inl blank) spaced

end Lexical

/-- Lexemes one behind the other, each with what follows it. -/
def Lexeme.row (parts : List (Lexeme × List Char)) : List Char :=
  parts.flatMap fun x => x.1.spell ++ x.2

namespace Feed

/-- A scan reads the lexemes of a row, also behind a separator. -/
theorem tokens_row {parts : List (Lexeme × List Char)} (printable : ∀ x ∈ parts, x.1.IsPrintable)
    (separated : ∀ x ∈ parts.dropLast, x.2 ∈ separator) (spaced : ∀ x ∈ parts, x.2 ∈ 1 + separator)
    {sep : List Char} (mem : sep ∈ spacing) (p : Position) :
    (ofCursor ⟨sep ++ Lexeme.row parts, p⟩).fault? = none ∧
      (ofCursor ⟨sep ++ Lexeme.row parts, p⟩).tokens.map (·.lexeme) = parts.map (·.1) ++ [.endOfFile] := by
  obtain ⟨q, skipped⟩ := Cursor.skip_spacing mem (Lexeme.row parts) p
  induction parts generalizing sep p q with
  | nil =>
    have ends : Cursor.skipBlanks ⟨sep ++ Lexeme.row [], p⟩ = ⟨[], q⟩ := skipped
    rw [ofCursor_of_done (Cursor.scan_of_nil (by rw [ends]))]
    exact ⟨rfl, rfl⟩
  | cons x parts ih =>
    obtain ⟨first, printable⟩ := List.forall_mem_cons.1 printable
    obtain ⟨after, spaced⟩ := List.forall_mem_cons.1 spaced
    have follows : ∀ c ∈ (x.2 ++ Lexeme.row parts).head?, Text.isBlank c := by
      have blank (mem : x.2 ∈ separator) : ∀ c ∈ (x.2 ++ Lexeme.row parts).head?, Text.isBlank c := by
        obtain ⟨d, t, eq, blank⟩ := head_separator mem
        rw [eq]
        rintro c ⟨⟩
        exact blank
      by_cases last : parts = []
      · rcases after with none | mem
        · rw [last, show x.2 = [] from none]
          exact nofun
        · exact blank mem
      · rw [List.dropLast_cons_of_ne_nil last] at separated
        exact blank (separated x List.mem_cons_self)
    have others : ∀ y ∈ parts.dropLast, y.2 ∈ separator := by
      by_cases last : parts = []
      · rw [last]
        exact nofun
      · rw [List.dropLast_cons_of_ne_nil last] at separated
        exact fun y mem => separated y (List.mem_cons_of_mem x mem)
    have reads := Scan.reads_spell first follows
    have row : Lexeme.row (x :: parts) = x.1.spell ++ (x.2 ++ Lexeme.row parts) := by simp [Lexeme.row]
    obtain ⟨start, stop, scanned⟩ := Cursor.scan_of_reads (c := ⟨sep ++ Lexeme.row (x :: parts), p⟩) reads
      (by rw [Cursor.skipBlanks, skipped, row, Cursor.skip_of_reads reads])
    have ne : x.1 ≠ .endOfFile := by
      intro eof
      rw [eof] at first
      exact first
    rw [ofCursor_of_token scanned ne]
    obtain ⟨q, skipped⟩ := Cursor.skip_spacing (spacing_of_separator after) (Lexeme.row parts) stop
    obtain ⟨none, lexemes⟩ := ih printable others spaced (spacing_of_separator after) stop q skipped
    exact ⟨none, congrArg (x.1 :: ·) lexemes⟩

end Feed

/-- Scanning undoes writing: lexemes that are written with separators between them are what is scanned, up to
the end of the source. The last one may also stand at the end of the text. -/
theorem tokenize_row (parts : List (Lexeme × List Char)) (printable : ∀ x ∈ parts, x.1.IsPrintable)
    (separated : ∀ x ∈ parts.dropLast, x.2 ∈ separator) (spaced : ∀ x ∈ parts, x.2 ∈ 1 + separator) :
    ∃ ts, tokenize (String.ofList (Lexeme.row parts)) = .ok ts ∧
      ts.map (·.lexeme) = parts.map (·.1) ++ [.endOfFile] := by
  obtain ⟨none, lexemes⟩ := Feed.tokens_row printable separated spaced (Language.nil_mem_kstar _) .origin
  have source : Feed.ofSource (String.ofList (Lexeme.row parts))
      = .ofCursor ⟨[] ++ Lexeme.row parts, .origin⟩ := by
    rw [Feed.ofSource, Cursor.ofSource, String.toList_ofList]
    rfl
  refine ⟨_, ?_, lexemes⟩
  rw [tokenize, Feed.mapM_items, source, none]

/-- A division by a string, with a comment behind the first name and no blank but that before the comment. -/
theorem tokenize_row_comment :
    Lexeme.row [(.ident "x", " // /\n".toList), (.punct .slash, "\t".toList), (.string "a\n\"\\", [])]
      = "x // /\n/\t\"a\\n\\\"\\\\\"".toList ∧
    ∃ ts, tokenize (String.ofList (Lexeme.row
        [(.ident "x", " // /\n".toList), (.punct .slash, "\t".toList), (.string "a\n\"\\", [])])) = .ok ts ∧
      ts.map (·.lexeme) = [.ident "x", .punct .slash, .string "a\n\"\\", .endOfFile] := by
  have blank {c : Char} (blank : Text.isBlank c) {t : List Char} (mem : t ∈ spacing) : c :: t ∈ separator :=
    Language.append_mem_mul (a := [c]) ⟨c, blank, rfl⟩ mem
  have none : [] ∈ spacing := Language.nil_mem_kstar _
  have comment : "// /\n".toList ∈ spacing := by
    have body : " /".toList ∈ (one fun c => !Text.isLineBreak c)∗ := mem_star_one.2 (List.all_eq_true.1 rfl)
    have opened : "// /".toList ∈ Lexical.comment := Language.append_mem_mul (a := "//".toList) rfl body
    exact append_mem_star (v := "// /\n".toList) (.inr (Language.append_mem_mul opened ⟨'\n', rfl, rfl⟩)) none
  refine ⟨by decide, tokenize_row _ ?_ ?_ ?_⟩
  · simp only [List.forall_mem_cons]
    refine ⟨⟨mem_plus.2 ⟨'x', [], rfl, rfl, nofun⟩, fun k => ?_⟩, trivial, trivial, nofun⟩
    cases k <;> decide
  · simp only [List.dropLast, List.forall_mem_cons]
    exact ⟨blank rfl comment, blank rfl none, nofun⟩
  · simp only [List.forall_mem_cons]
    exact ⟨.inr (blank rfl comment), .inr (blank rfl none), .inl rfl, nofun⟩

end CZero
