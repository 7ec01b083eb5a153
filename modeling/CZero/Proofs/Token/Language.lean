import CZero.Proofs.Grammar.Language
import CZero.Token.Scan
import Mathlib.Computability.Language
import Mathlib.Data.Nat.Digits.Defs

/-!
# The lexical grammar

The spellings of each kind of token as a language of characters, and what a spelling stands for. Nothing
here says how a text is scanned.

    identifier   [A-Za-z_] [A-Za-z0-9_]*               no keyword
    integer      [0-9]+
    double       [0-9]+ . [0-9]+ ([eE] [+-]? [0-9]+)?
    string       " item* "                              item: a character but " \ and line breaks,
    char         ' item '                               or one of  \' \" \\ \n \r \t
    trivia       (white space | comment)*
    comment      // and characters but line breaks

A scanner takes the longest match: of all the prefixes of a text that are in a language, the longest one.
-/

namespace CZero

open scoped Computability

/-- Of the prefixes of a text that are in a language, `w` is the longest. -/
structure LongestMatch (L : Language Char) (cs w : List Char) : Prop where
  isPrefix : w <+: cs
  mem : w ∈ L
  longest : ∀ v, v <+: cs → v ∈ L → v.length ≤ w.length

namespace Lexical

/-! ### Spellings -/

/-- One character of a class. -/
def one (p : Char → Bool) : Language Char :=
  {w | ∃ c, p c ∧ w = [c]}

/-- Just this text. -/
def text (s : String) : Language Char :=
  {s.toList}

def digits : Language Char :=
  one Char.isDigit * (one Char.isDigit)∗

def exponent : Language Char :=
  (text "e" + text "E") * (1 + text "+" + text "-") * digits

def double : Language Char :=
  digits * text "." * digits * (1 + exponent)

def word : Language Char :=
  one Scan.isWordStart * (one Scan.isWordPart)∗

/-- Characters that stand for themselves between these quotes. -/
def isPlain (quote c : Char) : Bool :=
  c != quote && c != '\\' && !Text.isLineBreak c

/-- The characters that may follow a backslash, and what they stand for then. -/
def escapes : List (Char × Char) :=
  [('\'', '\''), ('\"', '\"'), ('\\', '\\'), ('n', '\n'), ('r', '\r'), ('t', '\t')]

/-- One character between quotes. -/
def item (quote : Char) : Language Char :=
  one (isPlain quote) + text "\\" * one fun c => escapes.any (·.1 == c)

def string : Language Char :=
  text "\"" * (item '\"')∗ * text "\""

def char : Language Char :=
  text "'" * item '\'' * text "'"

/-- A comment, without the end of its line. -/
def comment : Language Char :=
  text "//" * (one fun c => !Text.isLineBreak c)∗

/-- What may stand between tokens. -/
def trivia : Language Char :=
  (one Text.isBlank + comment)∗

end Lexical

/-- The spellings of the tokens of a kind. -/
def Kind.language : Kind → Language Char
  | .ident => {w ∈ Lexical.word | ∀ k : Keyword, w ≠ k.spelling.toList}
  | .uint => Lexical.digits
  | .double => Lexical.double
  | .string => Lexical.string
  | .char => Lexical.char
  | .keyword k => Lexical.text k.spelling
  | .punct p => Lexical.text p.spelling

namespace Lexical

/-- The spellings of all tokens. -/
def tokens : Language Char :=
  {w | ∃ k : Kind, w ∈ k.language}

/-! ### Values -/

/-- The number that a row of decimal digits writes, the first digit being the highest. -/
def decimal (ds : List Char) : Nat :=
  Nat.ofDigits 10 (ds.reverse.map fun c => c.toNat - '0'.toNat)

/-- The power of ten that an exponent writes, also if there is none. -/
inductive Exponent : List Char → Int → Prop
  | none : Exponent [] 0
  | plain {mark : Char} {ds : List Char} : mark = 'e' ∨ mark = 'E' → ds ∈ digits →
    Exponent (mark :: ds) (decimal ds)
  | plus {mark : Char} {ds : List Char} : mark = 'e' ∨ mark = 'E' → ds ∈ digits →
    Exponent (mark :: '+' :: ds) (decimal ds)
  | minus {mark : Char} {ds : List Char} : mark = 'e' ∨ mark = 'E' → ds ∈ digits →
    Exponent (mark :: '-' :: ds) (-decimal ds)

/-- The text that is written between quotes. -/
inductive Resolves (quote : Char) : List Char → List Char → Prop
  | nil : Resolves quote [] []
  | plain {c : Char} {w t : List Char} : isPlain quote c → Resolves quote w t → Resolves quote (c :: w) (c :: t)
  | escape {e c : Char} {w t : List Char} : (e, c) ∈ escapes → Resolves quote w t →
    Resolves quote ('\\' :: e :: w) (c :: t)

end Lexical

open Lexical in
/-- The lexeme is what the spelling `w` stands for. -/
def Lexeme.Means (w : List Char) : Lexeme → Prop
  | .ident name => name = String.ofList w
  | .uint value => value.toNat = decimal w
  | .double value => ∃ whole fraction mark e, w = whole ++ '.' :: (fraction ++ mark) ∧
      whole ∈ digits ∧ fraction ∈ digits ∧ Exponent mark e ∧
      value = Decimal.toBinary64 ⟨decimal (whole ++ fraction), e - fraction.length⟩
  | .string text => ∃ body, w = '\"' :: body ++ ['\"'] ∧ Resolves '\"' body text.toList
  | .char c => ∃ body, w = '\'' :: body ++ ['\''] ∧ Resolves '\'' body [c]
  | .keyword k => w = k.spelling.toList
  | .punct p => w = p.spelling.toList
  | .endOfFile => False

namespace Lexical

variable {w : List Char}

/-! ### Membership -/

theorem mem_one {p : Char → Bool} : w ∈ one p ↔ ∃ c, p c ∧ w = [c] := Iff.rfl

theorem append_mem_star {L : Language Char} {v : List Char} (hv : v ∈ L) (hw : w ∈ L∗) : v ++ w ∈ L∗ := by
  obtain ⟨parts, rfl, each⟩ := Language.mem_kstar.1 hw
  exact Language.mem_kstar.2 ⟨v :: parts, rfl, List.forall_mem_cons.2 ⟨hv, each⟩⟩

theorem mem_star_one {p : Char → Bool} : w ∈ (one p)∗ ↔ ∀ c ∈ w, p c := by
  constructor
  · intro mem c mem_c
    obtain ⟨parts, rfl, each⟩ := Language.mem_kstar.1 mem
    obtain ⟨part, mem_part, mem_c⟩ := List.mem_flatten.1 mem_c
    obtain ⟨d, hd, rfl⟩ := each part mem_part
    rwa [List.mem_singleton.1 mem_c]
  · intro all
    induction w with
    | nil => exact Language.nil_mem_kstar _
    | cons c w ih =>
      obtain ⟨hc, hw⟩ := List.forall_mem_cons.1 all
      exact append_mem_star (v := [c]) ⟨c, hc, rfl⟩ (ih hw)

theorem mem_plus {p q : Char → Bool} :
    w ∈ one p * (one q)∗ ↔ ∃ c t, w = c :: t ∧ p c ∧ ∀ d ∈ t, q d := by
  rw [Language.mem_mul]
  constructor
  · rintro ⟨_, ⟨c, hc, rfl⟩, t, ht, rfl⟩
    exact ⟨c, t, rfl, hc, mem_star_one.1 ht⟩
  · rintro ⟨c, t, rfl, hc, ht⟩
    exact ⟨[c], ⟨c, hc, rfl⟩, t, mem_star_one.2 ht, rfl⟩

theorem mem_digits : w ∈ digits ↔ w ≠ [] ∧ ∀ c ∈ w, c.isDigit := by
  rw [digits, mem_plus]
  constructor
  · rintro ⟨c, t, rfl, hc, ht⟩
    exact ⟨nofun, List.forall_mem_cons.2 ⟨hc, ht⟩⟩
  · rintro ⟨some, all⟩
    obtain ⟨c, t, rfl⟩ := List.exists_cons_of_ne_nil some
    exact ⟨c, t, rfl, List.forall_mem_cons.1 all⟩

theorem mem_exponent : w ∈ 1 + exponent ↔ ∃ e, Exponent w e := by
  rw [Language.mem_add, Language.mem_one]
  constructor
  · rintro (rfl | ⟨_, ⟨mark, hmark, sign, hsign, rfl⟩, ds, hds, rfl⟩)
    · exact ⟨0, .none⟩
    · obtain ⟨m, rfl, hm⟩ : ∃ m, mark = [m] ∧ (m = 'e' ∨ m = 'E') := by
        rcases hmark with rfl | rfl
        · exact ⟨'e', rfl, .inl rfl⟩
        · exact ⟨'E', rfl, .inr rfl⟩
      rcases hsign with (rfl | rfl) | rfl
      · exact ⟨_, .plain hm hds⟩
      · exact ⟨_, .plus hm hds⟩
      · exact ⟨_, .minus hm hds⟩
  · have marked {mark : Char} (hmark : mark = 'e' ∨ mark = 'E') (sign : List Char) {ds : List Char}
        (hsign : sign ∈ 1 + text "+" + text "-") (hds : ds ∈ digits) : mark :: sign ++ ds ∈ exponent := by
      refine Language.append_mem_mul (Language.append_mem_mul (a := [mark]) ?_ hsign) hds
      rcases hmark with rfl | rfl
      · exact .inl rfl
      · exact .inr rfl
    rintro ⟨e, none | ⟨hm, hds⟩ | ⟨hm, hds⟩ | ⟨hm, hds⟩⟩
    · exact .inl rfl
    · exact .inr (marked hm [] (.inl (.inl rfl)) hds)
    · exact .inr (marked hm ['+'] (.inl (.inr rfl)) hds)
    · exact .inr (marked hm ['-'] (.inr rfl) hds)

theorem mem_double : w ∈ double ↔ ∃ whole fraction mark e, w = whole ++ '.' :: (fraction ++ mark) ∧
    whole ∈ digits ∧ fraction ∈ digits ∧ Exponent mark e := by
  constructor
  · rintro ⟨_, ⟨_, ⟨whole, hwhole, _, rfl, rfl⟩, fraction, hfraction, rfl⟩, mark, hmark, rfl⟩
    obtain ⟨e, he⟩ := mem_exponent.1 hmark
    refine ⟨whole, fraction, mark, e, ?_, hwhole, hfraction, he⟩
    simp
  · rintro ⟨whole, fraction, mark, e, rfl, hwhole, hfraction, he⟩
    have all : whole ++ '.' :: (fraction ++ mark) = whole ++ ['.'] ++ fraction ++ mark := by simp
    rw [all]
    exact Language.append_mem_mul (Language.append_mem_mul (Language.append_mem_mul hwhole rfl) hfraction)
      (mem_exponent.2 ⟨e, he⟩)

theorem isPlain_iff {quote c : Char} :
    isPlain quote c ↔ c ≠ quote ∧ c ≠ '\\' ∧ Text.isLineBreak c = false := by
  simp [isPlain, and_assoc]

theorem any_escapes {e : Char} : escapes.any (·.1 == e) ↔ ∃ c, (e, c) ∈ escapes := by
  simp only [List.any_eq_true, beq_iff_eq]
  constructor
  · rintro ⟨⟨e, c⟩, mem, rfl⟩
    exact ⟨c, mem⟩
  · rintro ⟨c, mem⟩
    exact ⟨(e, c), mem, rfl⟩

theorem mem_item {quote : Char} : w ∈ item quote ↔ ∃ c, Resolves quote w [c] := by
  constructor
  · rintro (⟨c, plain, rfl⟩ | ⟨_, rfl, _, ⟨e, escaped, rfl⟩, rfl⟩)
    · exact ⟨c, .plain plain .nil⟩
    · obtain ⟨c, mem⟩ := any_escapes.1 escaped
      exact ⟨c, .escape mem .nil⟩
  · rintro ⟨c, resolves⟩
    cases resolves with
    | plain plain rest =>
      cases rest
      exact .inl ⟨c, plain, rfl⟩
    | escape mem rest =>
      cases rest
      exact .inr ⟨_, rfl, _, ⟨_, any_escapes.2 ⟨c, mem⟩, rfl⟩, rfl⟩

theorem Resolves.append {quote : Char} {v s t : List Char} (hv : Resolves quote v s) (hw : Resolves quote w t) :
    Resolves quote (v ++ w) (s ++ t) := by
  induction hv with
  | nil => exact hw
  | plain hc _ ih => exact .plain hc ih
  | escape mem _ ih => exact .escape mem ih

/-- A literal stays on its line. -/
theorem Resolves.not_isLineBreak {quote : Char} {t : List Char} (h : Resolves quote w t) :
    ∀ c ∈ w, Text.isLineBreak c = false := by
  have escaped : ∀ x ∈ escapes, Text.isLineBreak x.1 = false := by decide
  induction h with
  | nil => exact nofun
  | plain plain _ ih => exact List.forall_mem_cons.2 ⟨(isPlain_iff.1 plain).2.2, ih⟩
  | escape mem _ ih => exact List.forall_mem_cons.2 ⟨rfl, List.forall_mem_cons.2 ⟨escaped _ mem, ih⟩⟩

theorem mem_items {quote : Char} : w ∈ (item quote)∗ ↔ ∃ t, Resolves quote w t := by
  constructor
  · rintro ⟨parts, rfl, each⟩
    induction parts with
    | nil => exact ⟨[], .nil⟩
    | cons part parts ih =>
      obtain ⟨first, rest⟩ := List.forall_mem_cons.1 each
      obtain ⟨c, hc⟩ := mem_item.1 first
      obtain ⟨t, ht⟩ := ih rest
      exact ⟨_, hc.append ht⟩
  · rintro ⟨t, resolves⟩
    induction resolves with
    | nil => exact Language.nil_mem_kstar _
    | @plain c _ _ plain _ ih => exact append_mem_star (v := [c]) (mem_item.2 ⟨c, .plain plain .nil⟩) ih
    | @escape e c _ _ mem _ ih => exact append_mem_star (v := ['\\', e]) (mem_item.2 ⟨c, .escape mem .nil⟩) ih

theorem mem_string : w ∈ string ↔ ∃ body t, w = '\"' :: body ++ ['\"'] ∧ Resolves '\"' body t := by
  constructor
  · rintro ⟨_, ⟨_, rfl, body, hbody, rfl⟩, _, rfl, rfl⟩
    obtain ⟨t, resolves⟩ := mem_items.1 hbody
    exact ⟨body, t, rfl, resolves⟩
  · rintro ⟨body, t, rfl, resolves⟩
    exact Language.append_mem_mul (Language.append_mem_mul (a := ['\"']) rfl (mem_items.2 ⟨t, resolves⟩)) rfl

theorem mem_char : w ∈ char ↔ ∃ body c, w = '\'' :: body ++ ['\''] ∧ Resolves '\'' body [c] := by
  constructor
  · rintro ⟨_, ⟨_, rfl, body, hbody, rfl⟩, _, rfl, rfl⟩
    obtain ⟨c, resolves⟩ := mem_item.1 hbody
    exact ⟨body, c, rfl, resolves⟩
  · rintro ⟨body, c, rfl, resolves⟩
    exact Language.append_mem_mul (Language.append_mem_mul (a := ['\'']) rfl (mem_item.2 ⟨c, resolves⟩)) rfl

theorem mem_tokens : w ∈ tokens ↔ ∃ k : Kind, w ∈ k.language := Iff.rfl

end Lexical

end CZero
