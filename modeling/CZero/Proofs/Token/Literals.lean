import CZero.Proofs.Token.Language

/-!
# Scanning literals

What the scanners for numbers and quoted texts take is in the language of such literals, and nothing
longer is. Quoted texts are read in both directions: what a scanner accepts is a literal, and a literal is
accepted, whatever follows it. So no literal is the beginning of another one.

    1.5e+x      the number is 1.5: an exponent needs a digit
    "a\q"       no literal: the escape is wrong, at offset 3
-/

namespace CZero

open Lexical

/-! ### Rows of characters of one class -/

variable {p : Char → Bool} {cs v w : List Char}

/-- What follows the characters of a class at the head of a text. -/
theorem drop_length_takeWhile (p : Char → Bool) (cs : List Char) :
    cs.drop (cs.takeWhile p).length = cs.dropWhile p := by
  conv => lhs; arg 2; rw [← List.takeWhile_append_dropWhile (p := p) (l := cs)]
  rw [List.drop_left]

theorem length_le_takeWhile (pre : v <+: cs) (all : ∀ c ∈ v, p c) : v.length ≤ (cs.takeWhile p).length := by
  obtain ⟨rest, rfl⟩ := pre
  rw [List.takeWhile_append_of_pos all, List.length_append]
  exact Nat.le_add_right ..

/-- The characters of a class are over where another one comes. -/
theorem takeWhile_append_cons {c : Char} (all : ∀ c ∈ v, p c) (other : p c = false) (rest : List Char) :
    (v ++ c :: rest).takeWhile p = v := by
  rw [List.takeWhile_append_of_pos all, List.takeWhile_cons_of_neg (by simp [other]), List.append_nil]

theorem takeWhile_mem_digits (some : cs.takeWhile Char.isDigit ≠ []) : cs.takeWhile Char.isDigit ∈ digits :=
  mem_digits.2 ⟨some, List.all_eq_true.1 List.all_takeWhile⟩

/-! ### Numbers -/

theorem Decimal.ofDigits_eq_decimal (ds : List Char) : Decimal.ofDigits ds = decimal ds := by
  induction ds using List.reverseRecOn with
  | nil => rfl
  | append_singleton ds d ih =>
    rw [Decimal.ofDigits, List.foldl_append, ← Decimal.ofDigits, ih, decimal, decimal, List.reverse_append]
    simp only [List.foldl_cons, List.foldl_nil, List.reverse_singleton, List.singleton_append, List.map_cons,
      Nat.ofDigits_cons]
    exact Nat.add_comm ..

namespace Scan

theorem exponentPart_isPrefix (cs : List Char) : exponentPart cs <+: cs := by
  fun_cases exponentPart cs
  case case1 => exact List.cons_prefix_cons.2 ⟨rfl, List.takeWhile_prefix _⟩
  case case2 => exact List.cons_prefix_cons.2 ⟨rfl, List.cons_prefix_cons.2 ⟨rfl, List.takeWhile_prefix _⟩⟩
  all_goals exact List.nil_prefix

theorem isMark {mark : Char} (h : (mark == 'e' || mark == 'E') = true) : mark = 'e' ∨ mark = 'E' := by
  simpa using h

/-- What is taken for an exponent is one, and `exponentValue` is its value. -/
theorem exponent_exponentPart (cs : List Char) : Exponent (exponentPart cs) (exponentValue (exponentPart cs)) := by
  fun_cases exponentPart cs
  case case1 mark hmark c rest digit =>
    have row : (c :: rest).takeWhile Char.isDigit = c :: rest.takeWhile Char.isDigit := by simp [digit]
    have mem : c :: rest.takeWhile Char.isDigit ∈ digits := row ▸ takeWhile_mem_digits (by simp [digit])
    have value : exponentValue (mark :: c :: rest.takeWhile Char.isDigit)
        = decimal (c :: rest.takeWhile Char.isDigit) := by
      rw [← Decimal.ofDigits_eq_decimal, exponentValue]
      all_goals
        rintro ds ⟨⟩
        cases digit
    rw [row, value]
    exact .plain (isMark hmark) mem
  case case2 mark hmark c rest _ signed =>
    obtain ⟨sign, follows⟩ := by simpa using signed
    have mem : rest.takeWhile Char.isDigit ∈ digits := by
      refine takeWhile_mem_digits ?_
      cases rest with
      | nil => cases follows
      | cons d rest =>
        have digit : d.isDigit := follows
        simp [digit]
    rcases sign with rfl | rfl
    · rw [exponentValue, Decimal.ofDigits_eq_decimal]
      exact .plus (isMark hmark) mem
    · rw [exponentValue, Decimal.ofDigits_eq_decimal]
      exact .minus (isMark hmark) mem
  all_goals exact .none

theorem length_le_exponentPart {e : Int} (h : Exponent w e) (pre : w <+: cs) :
    w.length ≤ (exponentPart cs).length := by
  obtain ⟨rest, rfl⟩ := pre
  have digit {ds : List Char} (mem : ds ∈ digits) : ∃ d t, ds = d :: t ∧ d.isDigit := by
    obtain ⟨some, all⟩ := mem_digits.1 mem
    obtain ⟨d, t, rfl⟩ := List.exists_cons_of_ne_nil some
    exact ⟨d, t, rfl, all d List.mem_cons_self⟩
  have row {ds : List Char} (mem : ds ∈ digits) : ds.length ≤ ((ds ++ rest).takeWhile Char.isDigit).length :=
    length_le_takeWhile (List.prefix_append ds rest) (mem_digits.1 mem).2
  cases h with
  | none => exact Nat.zero_le _
  | plain hm mem =>
    have row := row mem
    obtain ⟨d, t, rfl, hd⟩ := digit mem
    simpa [exponentPart, hm, hd] using row
  | plus hm mem =>
    have row := row mem
    obtain ⟨d, t, rfl, hd⟩ := digit mem
    simpa [exponentPart, hm, hd] using row
  | minus hm mem =>
    have row := row mem
    obtain ⟨d, t, rfl, hd⟩ := digit mem
    simpa [exponentPart, hm, hd] using row

/-- A double at the head of a text has the digits that stand there, a point, and more digits. -/
theorem split_of_double (pre : v <+: cs) (mem : v ∈ double) :
    ∃ rest fraction mark e, cs.drop (cs.takeWhile Char.isDigit).length = '.' :: rest ∧ fraction ∈ digits ∧
      Exponent mark e ∧ fraction ++ mark <+: rest ∧
      v.length = (cs.takeWhile Char.isDigit).length + 1 + (fraction ++ mark).length := by
  obtain ⟨whole, fraction, mark, e, rfl, hwhole, hfraction, he⟩ := mem_double.1 mem
  obtain ⟨rest, rfl⟩ := pre
  have row : (whole ++ '.' :: (fraction ++ mark) ++ rest).takeWhile Char.isDigit = whole := by
    rw [List.append_assoc, List.cons_append]
    exact takeWhile_append_cons (mem_digits.1 hwhole).2 rfl _
  rw [row]
  refine ⟨fraction ++ mark ++ rest, fraction, mark, e, ?_, hfraction, he, List.prefix_append _ _, ?_⟩
  · rw [List.append_assoc, List.drop_left, List.cons_append]
  · simp only [List.length_append, List.length_cons]
    omega

/-- Digits and an exponent are taken as far as they go. -/
theorem length_le_fraction {fraction mark : List Char} {e : Int} (digits : fraction ∈ digits)
    (he : Exponent mark e) (pre : fraction ++ mark <+: cs) :
    (fraction ++ mark).length ≤ (cs.takeWhile Char.isDigit).length
      + (exponentPart (cs.drop (cs.takeWhile Char.isDigit).length)).length := by
  obtain ⟨rest, rfl⟩ := pre
  have all := (mem_digits.1 digits).2
  by_cases none : mark = []
  · subst none
    rw [List.append_nil]
    exact Nat.le_trans (length_le_takeWhile (List.prefix_append _ _) all) (Nat.le_add_right ..)
  · -- The mark is no digit, so the digits end before it.
    obtain ⟨c, t, rfl, other⟩ : ∃ c t, mark = c :: t ∧ c.isDigit = false := by
      cases he with
      | none => exact absurd rfl none
      | plain hm | plus hm | minus hm => exact ⟨_, _, rfl, by rcases hm with rfl | rfl <;> rfl⟩
    have row : (fraction ++ c :: t ++ rest).takeWhile Char.isDigit = fraction := by
      rw [List.append_assoc, List.cons_append]
      exact takeWhile_append_cons all other _
    rw [row, List.append_assoc, List.drop_left, List.length_append]
    exact Nat.add_le_add_left (length_le_exponentPart he (List.prefix_append _ _)) _

/-- What is taken for a double stands at the head of the text. -/
theorem numeral_isPrefix {rest : List Char} (point : cs.drop (cs.takeWhile Char.isDigit).length = '.' :: rest) :
    cs.takeWhile Char.isDigit ++ '.' :: (rest.takeWhile Char.isDigit
      ++ exponentPart (rest.drop (rest.takeWhile Char.isDigit).length)) <+: cs := by
  have split (cs : List Char) : cs.takeWhile Char.isDigit ++ cs.drop (cs.takeWhile Char.isDigit).length = cs := by
    rw [drop_length_takeWhile, List.takeWhile_append_dropWhile]
  have fraction := (List.prefix_append_right_inj (rest.takeWhile Char.isDigit)).2
    (exponentPart_isPrefix (rest.drop (rest.takeWhile Char.isDigit).length))
  rw [split] at fraction
  have all := (List.prefix_append_right_inj (cs.takeWhile Char.isDigit)).2
    ((List.prefix_cons_inj '.').2 fraction)
  rwa [← point, split] at all

/-! ### Quoted texts -/

theorem unescape?_eq_some_iff {e c : Char} : unescape? e = some c ↔ (e, c) ∈ escapes := by
  unfold unescape? escapes
  grind

/-- A string literal is accepted, whatever follows it. -/
theorem stringBody_of_resolves {body t : List Char} (h : Resolves '\"' body t) (taken : Nat) (rest : List Char) :
    stringBody taken (body ++ '\"' :: rest) = (.ok t, taken + body.length + 1) := by
  induction h generalizing taken with
  | nil => rfl
  | @plain c w t plain _ ih =>
    obtain ⟨quote, backslash, line⟩ := isPlain_iff.1 plain
    rw [List.cons_append, stringBody, if_neg (by simp [line]), if_neg quote, ih]
    · simp only [Except.map, List.length_cons]
      rw [Nat.add_right_comm taken 1]
      rfl
    · exact fun eq => absurd eq backslash
    · exact fun _ _ eq => absurd eq backslash
  | @escape e c w t mem _ ih =>
    rw [List.cons_append, List.cons_append, stringBody, unescape?_eq_some_iff.2 mem]
    simp only [ih, Except.map, List.length_cons]
    rw [Nat.add_right_comm taken 2]
    rfl

/-- What a scan of a string finds: its text, or that it is no string, and where an escape is wrong. -/
inductive StringFinds (taken : Nat) (cs : List Char) : Except (Cause × Nat) (List Char) × Nat → Prop
  | ok (body : List Char) {t rest : List Char} : cs = body ++ '\"' :: rest → Resolves '\"' body t →
    StringFinds taken cs (.ok t, taken + body.length + 1)
  | badEscape (body : List Char) {t rest : List Char} {e : Char} {n : Nat} : cs = body ++ '\\' :: e :: rest →
    Resolves '\"' body t → n ≤ taken + cs.length →
    StringFinds taken cs (.error (.invalidEscape e, taken + body.length + 1), n)
  | unterminated {n : Nat} : n ≤ taken + cs.length → StringFinds taken cs (.error (.unterminatedLiteral, 0), n)

/-- One more character before what was found. -/
theorem StringFinds.behind {taken n : Nat} {front cs : List Char} {c : Char}
    {text : Except (Cause × Nat) (List Char)} (first : Resolves '\"' front [c])
    (h : StringFinds (taken + front.length) cs (text, n)) :
    StringFinds taken (front ++ cs) (text.map (c :: ·), n) := by
  have move (k : Nat) : taken + front.length + k = taken + (front.length + k) := Nat.add_assoc ..
  cases h with
  | @ok body t rest split resolves =>
    have found : StringFinds taken (front ++ cs) _ :=
      .ok _ (by rw [split, List.append_assoc]) (first.append resolves)
    rwa [List.length_append, ← move] at found
  | @badEscape body t rest e _ split resolves le =>
    have found : StringFinds taken (front ++ cs) (_, n) :=
      .badEscape _ (by rw [split, List.append_assoc]) (first.append resolves)
        (by rwa [List.length_append, ← move])
    rwa [List.length_append, ← move] at found
  | unterminated le => exact .unterminated (by rwa [List.length_append, ← move])

theorem stringFinds_stringBody (taken : Nat) (cs : List Char) : StringFinds taken cs (stringBody taken cs) := by
  fun_induction stringBody taken cs with
  | case1 taken => exact .unterminated (Nat.le_refl _)
  | case2 taken => exact .unterminated (Nat.le_refl _)
  | case3 taken e cs c escaped text n eq ih =>
    exact .behind (.escape (unescape?_eq_some_iff.1 escaped) .nil) (eq ▸ ih)
  | case4 taken e cs unknown => exact .badEscape [] rfl .nil (Nat.add_le_add_left (by simp) _)
  | case5 taken c cs _ _ line => exact .unterminated (Nat.le_add_right ..)
  | case6 taken cs _ _ _ => exact .ok [] rfl .nil
  | case7 taken c cs single escape line quote text n eq ih =>
    have backslash : c ≠ '\\' := by
      intro is
      cases cs with
      | nil => exact single is rfl
      | cons e cs => exact escape e cs is rfl
    have plain : isPlain '\"' c := isPlain_iff.2 ⟨quote, backslash, by simpa using line⟩
    exact .behind (.plain plain .nil) (eq ▸ ih)

/-- A character literal is accepted, whatever follows it. -/
theorem charTail_of_resolves {body : List Char} {c : Char} (h : Resolves '\'' body [c]) (rest : List Char) :
    charTail (body ++ '\'' :: rest) = accept (.char c) (body.length + 2) := by
  cases h with
  | plain plain last =>
    cases last
    obtain ⟨quote, backslash, line⟩ := isPlain_iff.1 plain
    have close : Text.isLineBreak '\'' = false := rfl
    simp [charTail, charClose, quote, backslash, line, close]
  | escape mem last =>
    cases last
    simp [charTail, charClose, unescape?_eq_some_iff.2 mem, Text.isLineBreak]

/-- What a scan of a character finds: the character, or that it is none, and where an escape is wrong. -/
inductive CharFinds (cs : List Char) : Found → Prop
  | ok {body rest : List Char} {c : Char} : cs = body ++ '\'' :: rest → Resolves '\'' body [c] →
    CharFinds cs (accept (.char c) (body.length + 2))
  | badEscape {rest : List Char} {e : Char} : cs = '\\' :: e :: rest →
    CharFinds cs ⟨.error (.invalidEscape e, 2), 3⟩
  | refused {cause : Cause} {n : Nat} : (∀ ds, cause ≠ .integerTooLarge ds) → n ≤ cs.length + 1 →
    CharFinds cs (refuse cause n)

theorem charFinds_charClose {body cs : List Char} {c : Char} (h : Resolves '\'' body [c]) :
    CharFinds (body ++ cs) (charClose (body.length + 1) c cs) := by
  fun_cases charClose
  case case3 => exact .ok rfl h
  all_goals exact .refused (by simp) (by simp)

theorem charFinds_charTail (cs : List Char) : CharFinds cs (charTail cs) := by
  fun_cases charTail cs
  case case5 e rest c escaped _ _ =>
    exact charFinds_charClose (.escape (unescape?_eq_some_iff.1 escaped) .nil)
  case case6 => exact .badEscape rfl
  case case7 c rest line quote backslash =>
    exact charFinds_charClose (.plain (isPlain_iff.2 ⟨quote, backslash, by simpa using line⟩) .nil)
  all_goals exact .refused (by simp) (by simp)

end Scan

end CZero
