import CZero.Proofs.Token.Literals
import CZero.Proofs.Token.Trivia
import CZero.Token.Feed

/-!
# The longest match

A scan takes the longest prefix of the text that is a token of any kind, or there is none. The first
character tells the kinds that are possible, so the longest match of one scanner is the longest of all.

    first character    kinds                 decided by
    digit              integer, double       whether digits follow a point
    letter, _          identifier, keyword   the whole word
    ", '               string, char          the closing quote: no literal is the beginning of another
    other              operator, delimiter   the second character

Only one lexical fault is about a token: a row of digits whose value does not fit is the longest match, and
is refused. Every other fault means that no prefix of the text is a token.
-/

namespace CZero

open Lexical

/-! ### First characters -/

/-- The characters that the tokens of a kind can start with. -/
def Kind.StartsWith : Kind → Char → Prop
  | .ident, c | .keyword _, c => Scan.isWordStart c
  | .uint, c | .double, c => c.isDigit
  | .string, c => c = '\"'
  | .char, c => c = '\''
  | .punct p, c => p.spelling.toList.head? = some c

variable {k : Kind} {c : Char} {cs v w : List Char}

theorem Keyword.spelling_mem_word (k : Keyword) : k.spelling.toList ∈ word := by
  refine mem_plus.2 ?_
  cases k <;> exact ⟨_, _, rfl, rfl, List.all_eq_true.1 rfl⟩

theorem Kind.startsWith_of_prefix (mem : v ∈ k.language) (pre : v <+: c :: cs) : k.StartsWith c := by
  have first {d : Char} {t : List Char} (pre : d :: t <+: c :: cs) : d = c := (List.cons_prefix_cons.1 pre).1
  have ofWord (mem : v ∈ word) : Scan.isWordStart c := by
    obtain ⟨d, t, rfl, start, -⟩ := mem_plus.1 mem
    exact first pre ▸ start
  have ofDigits {ds t : List Char} (mem : ds ∈ digits) (pre : ds ++ t <+: c :: cs) : c.isDigit := by
    obtain ⟨d, ds, rfl, digit, -⟩ := mem_plus.1 mem
    exact first pre ▸ digit
  cases k with
  | ident => exact ofWord mem.1
  | keyword k =>
    obtain rfl : v = _ := mem
    exact ofWord k.spelling_mem_word
  | uint =>
    rw [← List.append_nil v] at pre
    exact ofDigits mem pre
  | double =>
    obtain ⟨whole, _, _, _, rfl, mem, -⟩ := mem_double.1 mem
    exact ofDigits mem pre
  | string =>
    obtain ⟨_, _, rfl, -⟩ := mem_string.1 mem
    exact (first pre).symm
  | char =>
    obtain ⟨_, _, rfl, -⟩ := mem_char.1 mem
    exact (first pre).symm
  | punct p =>
    obtain rfl : v = _ := mem
    cases p <;> exact congrArg some (first pre)

/-- Operators and delimiters start with characters of their own. -/
theorem Punct.not_of_head {p : Punct} (h : p.spelling.toList.head? = some c) :
    Scan.isWordStart c = false ∧ c.isDigit = false ∧ c ≠ '\"' ∧ c ≠ '\'' := by
  cases p <;> cases h <;> decide

theorem toNat_of_isDigit (h : c.isDigit) : 48 ≤ c.toNat ∧ c.toNat ≤ 57 := by
  obtain ⟨low, high⟩ := Bool.and_eq_true_iff.1 h
  exact ⟨of_decide_eq_true low, of_decide_eq_true high⟩

theorem toNat_of_isAlpha (h : c.isAlpha) : 65 ≤ c.toNat ∧ c.toNat ≤ 122 := by
  rcases Bool.or_eq_true_iff.1 h with upper | lower
  · have range : 65 ≤ c.toNat ∧ c.toNat ≤ 90 := of_decide_eq_true upper
    omega
  · obtain ⟨low, high⟩ := Bool.and_eq_true_iff.1 lower
    have low : 97 ≤ c.toNat := of_decide_eq_true low
    have high : c.toNat ≤ 122 := of_decide_eq_true high
    omega

theorem Scan.not_isDigit_of_isWordStart (h : isWordStart c) : c.isDigit = false := by
  refine Bool.eq_false_iff.2 fun digit => ?_
  have := toNat_of_isDigit digit
  rcases Bool.or_eq_true_iff.1 h with alpha | underscore
  · have := toNat_of_isAlpha alpha
    omega
  · obtain rfl : c = '_' := by simpa using underscore
    cases digit

namespace Kind.StartsWith

theorem ofPunct {p : Punct} (h : k.StartsWith c) (hc : p.spelling.toList.head? = some c) : ∃ q, k = .punct q := by
  obtain ⟨word, digit, quote, quote'⟩ := Punct.not_of_head hc
  cases k with
  | punct q => exact ⟨q, rfl⟩
  | ident | keyword => exact absurd (word.symm.trans h) nofun
  | uint | double => exact absurd (digit.symm.trans h) nofun
  | string => exact absurd h quote
  | char => exact absurd h quote'

theorem ofDigit (h : k.StartsWith c) (hc : c.isDigit) : k = .uint ∨ k = .double := by
  cases k with
  | uint => exact .inl rfl
  | double => exact .inr rfl
  | ident | keyword => exact absurd (hc.symm.trans (Scan.not_isDigit_of_isWordStart h)) nofun
  | punct p => exact absurd (hc.symm.trans (Punct.not_of_head h).2.1) nofun
  | string | char =>
    subst h
    cases hc

theorem ofWordStart (h : k.StartsWith c) (hc : Scan.isWordStart c) : k = .ident ∨ ∃ kw, k = .keyword kw := by
  cases k with
  | ident => exact .inl rfl
  | keyword kw => exact .inr ⟨kw, rfl⟩
  | uint | double => exact absurd (h.symm.trans (Scan.not_isDigit_of_isWordStart hc)) nofun
  | punct p => exact absurd (hc.symm.trans (Punct.not_of_head h).1) nofun
  | string | char =>
    subst h
    cases hc

theorem ofQuote (h : k.StartsWith '\"') : k = .string := by
  cases k with
  | string => rfl
  | punct p => exact absurd rfl (Punct.not_of_head h).2.2.1
  | _ => cases h

theorem ofApostrophe (h : k.StartsWith '\'') : k = .char := by
  cases k with
  | char => rfl
  | punct p => exact absurd rfl (Punct.not_of_head h).2.2.2
  | _ => cases h

end Kind.StartsWith

namespace Scan

/-! ### Words, operators and delimiters -/

theorem ofSpelling?_eq_some {s : String} {k : Keyword} (h : Keyword.ofSpelling? s = some k) : k.spelling = s := by
  simpa using List.find?_some h

theorem ofSpelling?_eq_none {s : String} (h : Keyword.ofSpelling? s = none) (k : Keyword) : k.spelling ≠ s := by
  have mem : k ∈ Keyword.all := by cases k <;> decide
  simpa using List.find?_eq_none.1 h k mem

theorem punct?_eq_some {p : Punct} {n : Nat} (h : punct? cs = some (p, n)) :
    p.spelling.toList <+: cs ∧ n = p.spelling.toList.length := by
  revert h
  fun_cases punct? cs
  all_goals rintro ⟨⟩
  all_goals exact ⟨⟨_, rfl⟩, rfl⟩

/-- Of two operators that fit the longer one is taken. -/
theorem le_punct? {p : Punct} (pre : p.spelling.toList <+: cs) :
    ∃ q n, punct? cs = some (q, n) ∧ p.spelling.toList.length ≤ n := by
  obtain ⟨rest, rfl⟩ := pre
  cases p
  case minus | assign | lt | gt =>
    -- Here a second character decides.
    cases rest with
    | nil => exact ⟨_, _, rfl, by decide⟩
    | cons d rest =>
      by_cases arrow : d = '>' <;> by_cases equals : d = '='
      all_goals simp [Punct.spelling, punct?, arrow, equals]
  all_goals exact ⟨_, _, rfl, by decide⟩

/-! ### One token -/

/-- What a scan of a text finds: the longest match, an integer that is too large, or that no token stands
there. Of a wrong escape it tells the place, and only the beginning of a literal is before it. -/
inductive Finds (cs : List Char) : Found → Prop
  | token {k : Kind} {l : Lexeme} {w : List Char} : l.kind = some k → w ∈ k.language → l.Means w →
    LongestMatch tokens cs w → Finds cs ⟨.ok l, w.length⟩
  | tooLarge {w : List Char} : w ∈ digits → LongestMatch tokens cs w → 2 ^ 64 ≤ decimal w →
    Finds cs ⟨.error (.integerTooLarge (String.ofList w), 0), w.length⟩
  | badEscape (before rest : List Char) {e : Char} {n : Nat} : cs = before ++ e :: rest →
    (∀ c ∈ before, Text.isLineBreak c = false) → (∀ w, w <+: cs → w ∉ tokens) → n ≤ cs.length →
    Finds cs ⟨.error (.invalidEscape e, before.length), n⟩
  | nothing {cause : Cause} {n : Nat} : (∀ ds, cause ≠ .integerTooLarge ds) → (∀ w, w <+: cs → w ∉ tokens) →
    n ≤ cs.length → Finds cs ⟨.error (cause, 0), n⟩

theorem longestMatch_tokens (pre : w <+: cs) (mem : w ∈ k.language)
    (longest : ∀ (k : Kind) v, v ∈ k.language → v <+: cs → v.length ≤ w.length) : LongestMatch tokens cs w where
  isPrefix := pre
  mem := mem_tokens.2 ⟨k, mem⟩
  longest v pre mem := by
    obtain ⟨k, mem⟩ := mem_tokens.1 mem
    exact longest k v mem pre

theorem finds_punct {p : Punct} {n : Nat} (h : punct? (c :: cs) = some (p, n)) :
    Finds (c :: cs) (accept (.punct p) n) := by
  obtain ⟨pre, rfl⟩ := punct?_eq_some h
  have head : p.spelling.toList.head? = some c := Kind.startsWith_of_prefix (k := .punct p) rfl pre
  refine .token (k := .punct p) rfl rfl rfl (longestMatch_tokens (k := .punct p) pre rfl fun k v mem pre' => ?_)
  obtain ⟨q, rfl⟩ := (Kind.startsWith_of_prefix mem pre').ofPunct head
  obtain rfl : v = _ := mem
  obtain ⟨_, _, found, le⟩ := le_punct? pre'
  rw [h] at found
  cases found
  exact le

theorem isWordPart_of_isWordStart (h : isWordStart c) : isWordPart c := by
  simp only [isWordStart, isWordPart, Char.isAlphanum, Bool.or_eq_true] at h ⊢
  exact h.imp_left Or.inl

theorem isWordPart_of_isDigit (h : c.isDigit) : isWordPart c := by
  simp only [isWordPart, Char.isAlphanum, Bool.or_eq_true]
  exact .inl (.inr h)

theorem forall_isWordPart (mem : w ∈ Lexical.word) : ∀ d ∈ w, isWordPart d := by
  obtain ⟨d, t, rfl, start, parts⟩ := mem_plus.1 mem
  exact List.forall_mem_cons.2 ⟨isWordPart_of_isWordStart start, parts⟩

theorem finds_word (start : isWordStart c) : Finds (c :: cs) (Scan.word (c :: cs)) := by
  have pre : (c :: cs).takeWhile isWordPart <+: c :: cs := List.takeWhile_prefix _
  have mem : (c :: cs).takeWhile isWordPart ∈ Lexical.word := by
    rw [List.takeWhile_cons_of_pos (isWordPart_of_isWordStart start)]
    exact mem_plus.2 ⟨_, _, rfl, start, List.all_eq_true.1 List.all_takeWhile⟩
  have longest (k : Kind) (v : List Char) (mem : v ∈ k.language) (pre : v <+: c :: cs) :
      v.length ≤ ((c :: cs).takeWhile isWordPart).length := by
    refine length_le_takeWhile pre (forall_isWordPart ?_)
    obtain rfl | ⟨kw, rfl⟩ := (Kind.startsWith_of_prefix mem pre).ofWordStart start
    · exact mem.1
    · obtain rfl : v = _ := mem
      exact kw.spelling_mem_word
  unfold Scan.word
  dsimp only
  split
  · next kw found =>
    have spelled : (c :: cs).takeWhile isWordPart = kw.spelling.toList := by
      rw [ofSpelling?_eq_some found, String.toList_ofList]
    exact .token (k := .keyword kw) rfl spelled spelled
      (longestMatch_tokens (k := .keyword kw) pre spelled longest)
  · next none =>
    have ident : (c :: cs).takeWhile isWordPart ∈ Kind.language .ident := by
      refine ⟨mem, fun kw spelled => ofSpelling?_eq_none none kw ?_⟩
      rw [spelled, String.ofList_toList]
    exact .token (k := .ident) rfl ident rfl (longestMatch_tokens pre ident longest)

theorem finds_integer (mem : w ∈ digits) (longest : LongestMatch tokens cs w) : Finds cs (number.integer w) := by
  unfold number.integer
  dsimp only
  rw [Decimal.ofDigits_eq_decimal]
  split
  · next small => exact .token (k := .uint) rfl mem (UInt64.toNat_ofNat_of_lt small) longest
  · next large => exact .tooLarge mem longest (Nat.le_of_not_lt large)

theorem finds_double {whole fraction mark : List Char} {e : Int} (hwhole : whole ∈ digits)
    (hfraction : fraction ∈ digits) (he : Exponent mark e) (pre : whole ++ '.' :: (fraction ++ mark) <+: cs)
    (longest : ∀ (k : Kind) v, v ∈ k.language → v <+: cs →
      v.length ≤ whole.length + 1 + (fraction.length + mark.length)) :
    Finds cs (accept (.double (Decimal.toBinary64 ⟨Decimal.ofDigits (whole ++ fraction), e - fraction.length⟩))
      (whole.length + 1 + fraction.length + mark.length)) := by
  have length : (whole ++ '.' :: (fraction ++ mark)).length
      = whole.length + 1 + (fraction.length + mark.length) := by
    simp only [List.length_append, List.length_cons]
    omega
  have mem : whole ++ '.' :: (fraction ++ mark) ∈ Kind.language .double :=
    mem_double.2 ⟨whole, fraction, mark, e, rfl, hwhole, hfraction, he⟩
  rw [Decimal.ofDigits_eq_decimal, Nat.add_assoc _ fraction.length, ← length]
  refine .token (k := .double) rfl mem ?_ (longestMatch_tokens pre mem fun k v mem pre => ?_)
  · exact ⟨whole, fraction, mark, e, rfl, hwhole, hfraction, he, rfl⟩
  · rw [length]
    exact longest k v mem pre

theorem finds_number (digit : c.isDigit) : Finds (c :: cs) (number (c :: cs)) := by
  have whole : (c :: cs).takeWhile Char.isDigit ∈ digits := takeWhile_mem_digits (by simp [digit])
  have pre : (c :: cs).takeWhile Char.isDigit <+: c :: cs := List.takeWhile_prefix _
  have kinds {k : Kind} {v : List Char} (mem : v ∈ k.language) (pre : v <+: c :: cs) :
      v.length ≤ ((c :: cs).takeWhile Char.isDigit).length ∨ v ∈ Lexical.double := by
    obtain rfl | rfl := (Kind.startsWith_of_prefix mem pre).ofDigit digit
    · exact .inl (length_le_takeWhile pre (mem_digits.1 mem).2)
    · exact .inr mem
  have integer (no : ∀ v, v <+: c :: cs → v ∉ Lexical.double) :
      Finds (c :: cs) (number.integer ((c :: cs).takeWhile Char.isDigit)) :=
    finds_integer whole (longestMatch_tokens (k := .uint) pre whole fun k v mem pre' =>
      (kinds mem pre').resolve_right (no v pre'))
  unfold number
  dsimp only
  split
  · next rest point =>
    split
    · next empty =>
      refine integer fun v pre mem => ?_
      obtain ⟨_, fraction, _, _, point', mem, -, pre, -⟩ := split_of_double pre mem
      cases point.symm.trans point'
      obtain ⟨some, all⟩ := mem_digits.1 mem
      have le := length_le_takeWhile ((List.prefix_append ..).trans pre) all
      rw [List.isEmpty_iff.1 empty] at le
      exact some (List.length_eq_zero_iff.1 (Nat.le_zero.1 le))
    · next some =>
      have fraction := takeWhile_mem_digits (mt List.isEmpty_iff.2 some)
      refine finds_double whole fraction (exponent_exponentPart _) ?_ fun k v mem pre => ?_
      · exact numeral_isPrefix point
      · obtain le | mem := kinds mem pre
        · omega
        · obtain ⟨_, _, _, _, point', mem, mark, pre, length⟩ := split_of_double pre mem
          cases point.symm.trans point'
          have := length_le_fraction mem mark pre
          omega
  · next other =>
    refine integer fun v pre mem => ?_
    obtain ⟨rest, _, _, _, point, -⟩ := split_of_double pre mem
    exact other rest point

/-- A token that starts with a quote is a string, and a scan takes all of it. -/
theorem stringBody_of_mem (mem : v ∈ k.language) (pre : v <+: '\"' :: cs) :
    ∃ t, stringBody 1 cs = (.ok t, v.length) := by
  obtain rfl := (Kind.startsWith_of_prefix mem pre).ofQuote
  obtain ⟨body, t, rfl, resolves⟩ := mem_string.1 mem
  obtain ⟨rest, eq⟩ := pre
  obtain rfl : body ++ '\"' :: rest = cs := by simpa using eq
  refine ⟨t, (stringBody_of_resolves resolves 1 rest).trans (congrArg _ ?_)⟩
  rw [List.length_append, List.length_cons, List.length_singleton, Nat.add_comm 1]

theorem finds_string : Finds ('\"' :: cs) (stringTail cs) := by
  have found := stringFinds_stringBody 1 cs
  unfold stringTail
  generalize eq : stringBody 1 cs = x at found ⊢
  have none {fault : Cause × Nat} {n : Nat} (refused : x = (.error fault, n)) :
      ∀ w, w <+: '\"' :: cs → w ∉ tokens := by
    intro w pre mem
    obtain ⟨k, mem⟩ := mem_tokens.1 mem
    obtain ⟨t, read⟩ := stringBody_of_mem mem pre
    rw [eq, refused] at read
    cases read
  cases found with
  | unterminated le => exact .nothing nofun (none rfl) (by rwa [List.length_cons, Nat.add_comm])
  | @badEscape body t rest e n split resolves le =>
    have before : ('\"' :: body ++ ['\\']).length = 1 + body.length + 1 := by simp [Nat.add_comm]
    rw [← before]
    refine .badEscape _ rest (by simp [split]) ?_ (none rfl) (by rwa [List.length_cons, Nat.add_comm])
    simp only [List.cons_append, List.forall_mem_cons, List.forall_mem_append]
    exact ⟨rfl, resolves.not_isLineBreak, rfl, nofun⟩
  | @ok body t rest split resolves =>
    have length : ('\"' :: body ++ ['\"']).length = 1 + body.length + 1 := by simp [Nat.add_comm]
    have mem : '\"' :: body ++ ['\"'] ∈ Kind.language .string := mem_string.2 ⟨body, t, rfl, resolves⟩
    rw [← length]
    refine .token (k := .string) rfl mem ⟨body, rfl, by rwa [String.toList_ofList]⟩ ?_
    refine longestMatch_tokens ⟨rest, by simp [split]⟩ mem fun k v mem' pre => ?_
    obtain ⟨t', read⟩ := stringBody_of_mem mem' pre
    rw [eq] at read
    rw [length]
    exact Nat.le_of_eq (Prod.mk.inj read).2.symm

/-- A token that starts with an apostrophe is a character, and a scan takes all of it. -/
theorem charTail_of_mem (mem : v ∈ k.language) (pre : v <+: '\'' :: cs) :
    ∃ c, charTail cs = accept (.char c) v.length := by
  obtain rfl := (Kind.startsWith_of_prefix mem pre).ofApostrophe
  obtain ⟨body, c, rfl, resolves⟩ := mem_char.1 mem
  obtain ⟨rest, eq⟩ := pre
  obtain rfl : body ++ '\'' :: rest = cs := by simpa using eq
  refine ⟨c, (charTail_of_resolves resolves rest).trans (congrArg _ ?_)⟩
  rw [List.length_append, List.length_cons, List.length_singleton]

theorem finds_char : Finds ('\'' :: cs) (charTail cs) := by
  have found := charFinds_charTail cs
  generalize eq : charTail cs = x at found ⊢
  have none {fault : Cause × Nat} {n : Nat} (refused : x = ⟨.error fault, n⟩) :
      ∀ w, w <+: '\'' :: cs → w ∉ tokens := by
    intro w pre mem
    obtain ⟨k, mem⟩ := mem_tokens.1 mem
    obtain ⟨t, read⟩ := charTail_of_mem mem pre
    rw [eq, refused] at read
    cases read
  cases found with
  | refused cause le => exact .nothing cause (none rfl) le
  | @badEscape rest e split =>
    have before : ∀ c ∈ ['\'', '\\'], Text.isLineBreak c = false :=
      List.forall_mem_cons.2 ⟨rfl, List.forall_mem_singleton.2 rfl⟩
    refine .badEscape ['\'', '\\'] rest (by simp [split]) before (none rfl) ?_
    simp [split]
  | @ok body rest c split resolves =>
    have length : ('\'' :: body ++ ['\'']).length = body.length + 2 := by simp
    have mem : '\'' :: body ++ ['\''] ∈ Kind.language .char := mem_char.2 ⟨body, c, rfl, resolves⟩
    rw [← length]
    refine .token (k := .char) rfl mem ⟨body, rfl, resolves⟩ ?_
    refine longestMatch_tokens ⟨rest, by simp [split]⟩ mem fun k v mem' pre => ?_
    obtain ⟨_, read⟩ := charTail_of_mem mem' pre
    rw [eq] at read
    rw [length]
    exact Nat.le_of_eq (Found.mk.inj read).2.symm

/-- A scan takes the longest match. -/
theorem finds_lexeme (c : Char) (cs : List Char) : Finds (c :: cs) (lexeme c cs) := by
  unfold lexeme
  split
  · next p n h => exact finds_punct h
  next none =>
  split
  · next h =>
    subst h
    exact finds_string
  next quote =>
  split
  · next h =>
    subst h
    exact finds_char
  next quote' =>
  split
  · next digit => exact finds_number digit
  next digit =>
  split
  · next start => exact finds_word start
  next start =>
  refine .nothing nofun (fun v pre mem => ?_) (by simp)
  obtain ⟨k, mem⟩ := mem_tokens.1 mem
  have starts := Kind.startsWith_of_prefix mem pre
  cases k with
  | ident | keyword => exact start starts
  | uint | double => exact digit starts
  | string => exact quote starts
  | char => exact quote' starts
  | punct p =>
    obtain rfl : v = _ := mem
    obtain ⟨_, _, found, -⟩ := le_punct? pre
    rw [none] at found
    cases found

theorem Finds.length_le {found : Found} (h : Finds cs found) : found.length ≤ cs.length := by
  cases h with
  | token _ _ _ longest => exact longest.isPrefix.length_le
  | tooLarge _ longest _ => exact longest.isPrefix.length_le
  | badEscape _ _ _ _ _ le => exact le
  | nothing _ _ le => exact le

end Scan

/-! ### Lexers -/

namespace Cursor

/-- What a scan answers when something was found at this place. -/
def answer (p : Position) (found : Found) : Except Diagnostic Token :=
  match found.outcome with
  | .ok lexeme => .ok ⟨lexeme, p, p.advance found.length⟩
  | .error (cause, distance) => .error ⟨cause, p.advance distance⟩

theorem scan_of_nil {c : Cursor} (h : c.skipBlanks.rest = []) :
    c.scan = (.ok ⟨.endOfFile, c.skipBlanks.position, c.skipBlanks.position⟩, c.skipBlanks) := by
  rw [scan]
  dsimp only
  split
  · rfl
  · next eq =>
    rw [h] at eq
    cases eq

theorem scan_of_cons {c : Cursor} {ch : Char} {cs : List Char} (h : c.skipBlanks.rest = ch :: cs) :
    c.scan = (answer c.skipBlanks.position (Scan.lexeme ch cs),
      c.skipBlanks.advance (Scan.lexeme ch cs).length) := by
  rw [scan]
  dsimp only
  split
  · next eq =>
    rw [h] at eq
    cases eq
  · next eq =>
    cases h.symm.trans eq
    obtain ⟨outcome, length⟩ := Scan.lexeme ch cs
    cases outcome <;> rfl

/-- A scan moves on in its text, whether it finds a token or not. -/
theorem In.scan {chars : List Char} {c : Cursor} (h : In chars c) : In chars c.scan.2 := by
  cases eq : c.skipBlanks.rest with
  | nil =>
    rw [scan_of_nil eq]
    exact h.skipBlanks
  | cons ch cs =>
    rw [scan_of_cons eq]
    exact h.skipBlanks.advance (eq ▸ (Scan.finds_lexeme ch cs).length_le)

/-- Only the end of a text is taken for the end of a text. -/
theorem scan_endOfFile {c after : Cursor} {t : Token} (h : c.scan = (.ok t, after))
    (done : t.lexeme = .endOfFile) : t = ⟨.endOfFile, t.start, t.start⟩ := by
  cases eq : c.skipBlanks.rest with
  | nil =>
    cases (scan_of_nil eq).symm.trans h
    rfl
  | cons ch cs =>
    have finds := Scan.finds_lexeme ch cs
    rw [scan_of_cons eq] at h
    generalize Scan.lexeme ch cs = found at finds h
    cases finds with
    | token _ _ means =>
      cases h
      obtain rfl := done
      exact means.elim
    | tooLarge | badEscape | nothing => cases h

end Cursor

namespace Feed

variable {c after : Cursor}

theorem ofCursor_of_error {d : Diagnostic} (h : c.scan = (.error d, after)) : ofCursor c = .stuck d := by
  rw [ofCursor]
  split
  · next eq => cases h.symm.trans eq; rfl
  · next eq => cases h.symm.trans eq

theorem ofCursor_of_done {p q : Position} (h : c.scan = (.ok ⟨.endOfFile, p, q⟩, after)) :
    ofCursor c = .done p := by
  rw [ofCursor]
  split
  · next eq => cases h.symm.trans eq
  · next eq => cases h.symm.trans eq; rfl

theorem ofCursor_of_token {t : Token} (h : c.scan = (.ok t, after)) (ne : t.lexeme ≠ .endOfFile) :
    ofCursor c = .token t (ofCursor after) := by
  rw [ofCursor]
  split
  · next eq => cases h.symm.trans eq
  · next eq =>
    cases h.symm.trans eq
    rw [dif_neg ne]

end Feed

/-- What a scan has to answer about a text in which a token is to start at offset `s`. -/
def Lexical.Answers (chars : List Char) (s : Nat) : Except Diagnostic Token → Prop
  | .ok t => t.start.offset = s ∧ ∃ k, t.lexeme.kind = some k ∧
      chars.extract s t.stop.offset ∈ k.language ∧ t.lexeme.Means (chars.extract s t.stop.offset) ∧
      LongestMatch tokens (chars.drop s) (chars.extract s t.stop.offset)
  | .error ⟨.integerTooLarge ds, _⟩ => ds.toList ∈ digits ∧ LongestMatch tokens (chars.drop s) ds.toList ∧
      2 ^ 64 ≤ decimal ds.toList
  | .error _ => ∀ w, w <+: chars.drop s → w ∉ tokens

theorem Cursor.In.answers {chars : List Char} {c : Cursor} (h : c.In chars) {found : Found}
    (finds : Scan.Finds c.rest found) : Answers chars c.position.offset (answer c.position found) := by
  rw [h.rest_eq] at finds
  cases finds with
  | @token k l w kind mem means longest =>
    have taken : chars.extract c.position.offset (c.position.offset + w.length) = w := by
      rw [List.extract, Nat.add_sub_cancel_left]
      exact (List.prefix_iff_eq_take.1 longest.isPrefix).symm
    exact ⟨rfl, k, kind, taken.symm ▸ ⟨mem, means, longest⟩⟩
  | tooLarge mem longest large =>
    refine ⟨?_, ?_, ?_⟩ <;> rwa [String.toList_ofList]
  | badEscape _ _ _ _ none _ => exact none
  | @nothing cause _ other none _ =>
    cases cause with
    | integerTooLarge ds => exact absurd rfl (other ds)
    | _ => exact none

namespace Lexer

/-- The lexers that requests lead to from the start of a source. -/
inductive Reached (source : String) : Lexer → Prop
  | start : Reached source (.ofSource source)
  | next {l : Lexer} : Reached source l → Reached source l.next.2
  | peek {l : Lexer} : Reached source l → Reached source l.peek.2
  | pull {l : Lexer} : Reached source l → Reached source l.pull.2

variable {source : String} {l : Lexer}

theorem next_of_none (h : l.ahead = none) : l.next = (l.cursor.scan.1, { l with cursor := l.cursor.scan.2 }) := by
  rw [next, h]

theorem in_next {chars : List Char} (h : l.cursor.In chars) : l.next.2.cursor.In chars := by
  cases eq : l.ahead with
  | none =>
    rw [next_of_none eq]
    exact h.scan
  | some t =>
    rw [next, eq]
    exact h

theorem in_peek {chars : List Char} (h : l.cursor.In chars) : l.peek.2.cursor.In chars := by
  have scanned := h.scan
  unfold peek
  split
  · exact h
  · split
    · next eq => rwa [eq] at scanned
    · next eq => rwa [eq] at scanned

theorem Reached.in_cursor (h : l.Reached source) : l.cursor.In source.toList := by
  induction h with
  | start => exact .ofSource source
  | next _ ih => exact in_next ih
  | peek _ ih => exact in_peek ih
  | @pull l _ ih =>
    rw [Lexer.pull]
    split
    · exact ih
    · exact in_next ih

/-- A request to a lexer that keeps no token skips the longest run of white space and comments and then
takes the longest match, whatever was requested before. -/
theorem next_longestMatch (reached : l.Reached source) (scans : l.ahead = none) :
    ∃ s, l.position.offset ≤ s ∧ s ≤ source.toList.length ∧
      LongestMatch trivia (source.toList.drop l.position.offset) (source.toList.extract l.position.offset s) ∧
      (s < source.toList.length → Answers source.toList s l.next.1) ∧
      (s = source.toList.length → ∃ p : Position, p.offset = s ∧ l.next.1 = .ok ⟨.endOfFile, p, p⟩) := by
  have before := reached.in_cursor
  have after := before.skipBlanks
  obtain ⟨v, split, longest⟩ := Cursor.longestMatch_skip l.cursor.rest l.cursor.position
  have skipped := before.extract_eq after split
  rw [before.rest_eq, ← skipped] at longest
  have total := after.offset_add
  have le : l.position.offset ≤ l.cursor.skipBlanks.position.offset := by
    have shorter := Cursor.skip_length_le false l.cursor.rest l.cursor.position
    have := Cursor.offset_skip_add false l.cursor.rest l.cursor.position
    rw [position, Cursor.skipBlanks]
    omega
  refine ⟨l.cursor.skipBlanks.position.offset, le, by omega, longest, ?_, ?_⟩
  · intro some
    cases eq : l.cursor.skipBlanks.rest with
    | nil =>
      rw [eq, List.length_nil] at total
      omega
    | cons ch cs =>
      rw [next_of_none scans, Cursor.scan_of_cons eq]
      exact after.answers (eq ▸ Scan.finds_lexeme ch cs)
  · intro done
    have eq : l.cursor.skipBlanks.rest = [] := List.length_eq_zero_iff.1 (by omega)
    rw [next_of_none scans, Cursor.scan_of_nil eq]
    exact ⟨_, rfl, rfl⟩

/-- A request after a fault: the scan goes on behind the `$`, skips the comment and takes `1.5`, as no digit
follows the `e`. -/
theorem next_longestMatch_afterFault :
    let chars := "$ // c\n 1.5e".toList
    let l := (Lexer.ofSource "$ // c\n 1.5e").next.2
    l.ahead = none ∧ l.position.offset = 1 ∧ l.next.2.position = ⟨2, 5, 11⟩ ∧
    ∃ s, 1 ≤ s ∧ s ≤ 12 ∧ LongestMatch trivia (chars.drop 1) (chars.extract 1 s) ∧
      (s < 12 → Answers chars s l.next.1) ∧
      (s = 12 → ∃ p : Position, p.offset = s ∧ l.next.1 = .ok ⟨.endOfFile, p, p⟩) :=
  have reached : Reached "$ // c\n 1.5e" (ofSource "$ // c\n 1.5e").next.2 := .next .start
  ⟨rfl, by decide +kernel, by decide +kernel, next_longestMatch reached rfl⟩

end Lexer

end CZero
