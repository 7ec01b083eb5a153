import CZero.Text.Blank
import CZero.Token.Basic

/-!
# Scanning

One scan skips blanks and comments and then takes the longest lexeme at the head of the text.
Blanks are all white space, and a comment runs from `//` to the end of its line. Only they may hold
line breaks: a lexeme stays on its line, so its positions follow from its length alone.

A scan that fails also says how far it looked, and scanning may go on from there.
-/

namespace CZero

/-! ### Lexemes at the head of a text -/

/-- What was found at the head of a text: a lexeme, or a cause with its distance from the head; and
how many characters were taken. -/
structure Found where
  outcome : Except (Cause × Nat) Lexeme
  length : Nat

namespace Scan

/-- Characters an identifier may start with. -/
def isWordStart (c : Char) : Bool :=
  c.isAlpha || c == '_'

/-- Characters an identifier may go on with. -/
def isWordPart (c : Char) : Bool :=
  c.isAlphanum || c == '_'

/-- A lexeme of `n` characters. -/
def accept (lexeme : Lexeme) (n : Nat) : Found :=
  ⟨.ok lexeme, n⟩

/-- A fault at the head of the text, after `n` characters were taken. -/
def refuse (cause : Cause) (n : Nat) : Found :=
  ⟨.error (cause, 0), n⟩

/-- An identifier or keyword. -/
def word (cs : List Char) : Found :=
  let name := cs.takeWhile isWordPart
  let text := String.ofList name
  match Keyword.ofSpelling? text with
  | some k => accept (.keyword k) name.length
  | none => accept (.ident text) name.length

/-- The exponent at the head of a text: a mark, an optional sign, and digits. It is empty unless
all of these are there. -/
def exponentPart : List Char → List Char
  | mark :: cs =>
    if mark == 'e' || mark == 'E' then
      match cs with
      | c :: rest =>
        if c.isDigit then mark :: cs.takeWhile Char.isDigit
        else if (c == '+' || c == '-') && rest.head?.any Char.isDigit then
          mark :: c :: rest.takeWhile Char.isDigit
        else []
      | [] => []
    else []
  | [] => []

/-- The number that an exponent part writes. -/
def exponentValue : List Char → Int
  | _ :: '-' :: ds => -(Decimal.ofDigits ds : Int)
  | _ :: '+' :: ds => Decimal.ofDigits ds
  | _ :: ds => Decimal.ofDigits ds
  | [] => 0

/-- An integer or a double. A point belongs to the number only if a digit follows it. -/
def number (cs : List Char) : Found :=
  let whole := cs.takeWhile Char.isDigit
  match cs.drop whole.length with
  | '.' :: rest =>
    let fraction := rest.takeWhile Char.isDigit
    if fraction.isEmpty then integer whole
    else
      let exponent := exponentPart (rest.drop fraction.length)
      let value : Decimal :=
        ⟨Decimal.ofDigits (whole ++ fraction), exponentValue exponent - fraction.length⟩
      accept (.double value.toBinary64) (whole.length + 1 + fraction.length + exponent.length)
  | _ => integer whole
where
  /-- An integer, which has to fit in 64 bits. -/
  integer (ds : List Char) : Found :=
    let n := Decimal.ofDigits ds
    if n < UInt64.size then accept (.uint (UInt64.ofNat n)) ds.length
    else refuse (.integerTooLarge (String.ofList ds)) ds.length

/-- The character that a backslash and `c` stand for. -/
def unescape? (c : Char) : Option Char :=
  if c = '\'' || c = '\"' || c = '\\' then some c
  else if c = 'n' then some '\n'
  else if c = 'r' then some '\r'
  else if c = 't' then some '\t'
  else none

/-- The text of a string literal up to its closing quote, and how many characters the literal has up
to there; `taken` of them are already behind. -/
def stringBody (taken : Nat) : List Char → Except (Cause × Nat) (List Char) × Nat
  | [] => (.error (.unterminatedLiteral, 0), taken)
  | ['\\'] => (.error (.unterminatedLiteral, 0), taken + 1)
  | '\\' :: c :: cs =>
    match unescape? c with
    | some meaning =>
      let (text, n) := stringBody (taken + 2) cs
      (text.map (meaning :: ·), n)
    | none => (.error (.invalidEscape c, taken + 1), taken + 2)
  | c :: cs =>
    if Text.isLineBreak c then (.error (.unterminatedLiteral, 0), taken)
    else if c = '\"' then (.ok [], taken + 1)
    else
      let (text, n) := stringBody (taken + 1) cs
      (text.map (c :: ·), n)

/-- A string literal after its opening quote. -/
def stringTail (cs : List Char) : Found :=
  let (text, n) := stringBody 1 cs
  ⟨text.map fun t => .string (String.ofList t), n⟩

/-- The closing quote of a character literal. -/
def charClose (taken : Nat) (meaning : Char) : List Char → Found
  | [] => refuse .unterminatedLiteral taken
  | c :: _ =>
    if Text.isLineBreak c then refuse .unterminatedLiteral taken
    else if c = '\'' then accept (.char meaning) (taken + 1)
    else refuse .invalidCharLiteral taken

/-- A character literal after its opening quote. -/
def charTail : List Char → Found
  | [] => refuse .unterminatedLiteral 1
  | c :: cs =>
    if Text.isLineBreak c then refuse .unterminatedLiteral 1
    else if c = '\'' then refuse .invalidCharLiteral 2
    else if c = '\\' then
      match cs with
      | [] => refuse .unterminatedLiteral 2
      | e :: rest =>
        match unescape? e with
        | some meaning => charClose 3 meaning rest
        | none => ⟨.error (.invalidEscape e, 2), 3⟩
    else charClose 2 c cs

/-- The operator or delimiter at the head of a text, the longer one where two fit, and its
length. -/
def punct? : List Char → Option (Punct × Nat)
  | '-' :: '>' :: _ => some (.arrow, 2)
  | '=' :: '=' :: _ => some (.eq, 2)
  | '!' :: '=' :: _ => some (.ne, 2)
  | '<' :: '=' :: _ => some (.le, 2)
  | '>' :: '=' :: _ => some (.ge, 2)
  | '+' :: _ => some (.plus, 1)
  | '-' :: _ => some (.minus, 1)
  | '*' :: _ => some (.star, 1)
  | '/' :: _ => some (.slash, 1)
  | '=' :: _ => some (.assign, 1)
  | '<' :: _ => some (.lt, 1)
  | '>' :: _ => some (.gt, 1)
  | '(' :: _ => some (.lparen, 1)
  | ')' :: _ => some (.rparen, 1)
  | '\x7b' :: _ => some (.lbrace, 1)
  | '\x7d' :: _ => some (.rbrace, 1)
  | ',' :: _ => some (.comma, 1)
  | ':' :: _ => some (.colon, 1)
  | ';' :: _ => some (.semicolon, 1)
  | _ => none

/-- The lexeme at the head of a text that starts with `c`. -/
def lexeme (c : Char) (cs : List Char) : Found :=
  match punct? (c :: cs) with
  | some (p, n) => accept (.punct p) n
  | none =>
    if c = '\"' then stringTail cs
    else if c = '\'' then charTail cs
    else if c.isDigit then number (c :: cs)
    else if isWordStart c then word (c :: cs)
    else refuse (.unexpectedCharacter c) 1

/-! ### Every scan moves on -/

theorem le_stringBody (taken : Nat) (cs : List Char) : taken ≤ (stringBody taken cs).2 := by
  fun_induction stringBody taken cs <;> simp_all <;> omega

theorem charClose_length (taken : Nat) (meaning : Char) (cs : List Char) :
    taken ≤ (charClose taken meaning cs).length := by
  fun_cases charClose <;> simp [accept, refuse]

theorem charTail_length_pos (cs : List Char) : 0 < (charTail cs).length := by
  fun_cases charTail
  case case5 => exact Nat.lt_of_lt_of_le (by decide) (charClose_length 3 _ _)
  case case7 => exact Nat.lt_of_lt_of_le (by decide) (charClose_length 2 _ _)
  all_goals simp [refuse]

theorem punct?_length_pos {cs : List Char} {p : Punct} {n : Nat} (h : punct? cs = some (p, n)) :
    0 < n := by
  revert h
  fun_cases punct? <;> simp <;> omega

theorem number_length_pos {c : Char} (cs : List Char) (h : c.isDigit = true) :
    0 < (number (c :: cs)).length := by
  have integer_length (ds : List Char) : (number.integer ds).length = ds.length := by
    simp only [number.integer]
    split <;> rfl
  have whole_pos : 0 < ((c :: cs).takeWhile Char.isDigit).length := by simp [h]
  simp only [number]
  split
  · split
    · rwa [integer_length]
    · simp only [accept]; omega
  · rwa [integer_length]

theorem word_length_pos {c : Char} (cs : List Char) (h : isWordStart c = true) :
    0 < (word (c :: cs)).length := by
  have part : isWordPart c = true := by
    simp only [isWordStart, isWordPart, Char.isAlphanum, Bool.or_eq_true] at h ⊢
    exact h.imp_left Or.inl
  simp only [word]
  split <;> simp [accept, part]

/-- A scan takes at least one character, whether it succeeds or not. -/
theorem lexeme_length_pos (c : Char) (cs : List Char) : 0 < (lexeme c cs).length := by
  simp only [lexeme]
  split
  · rename_i h
    exact punct?_length_pos h
  · split
    · exact le_stringBody 1 cs
    · split
      · exact charTail_length_pos cs
      · split
        · rename_i h
          exact number_length_pos cs h
        · split
          · rename_i h
            exact word_length_pos cs h
          · simp [refuse]

end Scan

/-! ### Cursors -/

/-- A source text that is partly scanned: what is still to come, and its place. -/
structure Cursor where
  rest : List Char
  position : Position
deriving DecidableEq

namespace Cursor

/-- The cursor before the first character of a source. -/
def ofSource (source : String) : Cursor :=
  ⟨source.toList, .origin⟩

/-- The cursor `n` characters further on the same line. -/
def advance (c : Cursor) (n : Nat) : Cursor :=
  ⟨c.rest.drop n, c.position.advance n⟩

/-- Skips blanks and comments; `comment` tells that a comment is open. -/
def skip (comment : Bool) : List Char → Position → Cursor
  | [], p => ⟨[], p⟩
  | '\n' :: cs, p => skip false cs (p.nextLine 1)
  | '\r' :: '\n' :: cs, p => skip false cs (p.nextLine 2)
  | '\r' :: cs, p => skip false cs (p.nextLine 1)
  | c :: cs, p =>
    if comment || Text.isBlank c then skip comment cs (p.advance 1)
    else if c == '/' && cs.head? == some '/' then skip true cs (p.advance 1)
    else ⟨c :: cs, p⟩

/-- The cursor at the next lexeme, or at the end of the text. -/
def skipBlanks (c : Cursor) : Cursor :=
  skip false c.rest c.position

/-- Scans one token. The cursor moves past it, or to where a failed scan stopped. -/
def scan (c : Cursor) : Except Diagnostic Token × Cursor :=
  let c := c.skipBlanks
  match c.rest with
  | [] => (.ok ⟨.endOfFile, c.position, c.position⟩, c)
  | ch :: cs =>
    let found := Scan.lexeme ch cs
    let after := c.advance found.length
    match found.outcome with
    | .ok lexeme => (.ok ⟨lexeme, c.position, after.position⟩, after)
    | .error (cause, distance) => (.error ⟨cause, c.position.advance distance⟩, after)

theorem skip_length_le (comment : Bool) (cs : List Char) (p : Position) :
    (skip comment cs p).rest.length ≤ cs.length := by
  fun_induction skip comment cs p <;> simp_all <;> omega

/-- A scan that meets a character leaves a shorter text. -/
theorem scan_shorter {c after : Cursor} {t : Token} (h : c.scan = (.ok t, after))
    (ne : t.lexeme ≠ .endOfFile) : after.rest.length < c.rest.length := by
  have skipped := skip_length_le false c.rest c.position
  simp only [scan, skipBlanks] at h
  split at h
  · obtain ⟨rfl, -⟩ := by simpa using h
    exact absurd rfl ne
  · rename_i ch cs rest_eq
    have pos := Scan.lexeme_length_pos ch cs
    have : after = (skip false c.rest c.position).advance (Scan.lexeme ch cs).length := by
      split at h <;> simp_all
    simp only [this, advance, List.length_drop, rest_eq, List.length_cons] at skipped ⊢
    omega

end Cursor

end CZero
