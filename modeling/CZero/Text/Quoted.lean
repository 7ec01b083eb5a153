import CZero.Text.Printable

/-!
# Quoted text

A text is quoted by writing it between two quotes, with escapes for the quote itself, for the
backslash and for every character that cannot be shown. Strings stand between double quotes and
single characters between single ones; each leaves the other's quote alone.
-/

namespace CZero.Text

/-- The hexadecimal digits of a number, in lower case and without leading zeros. -/
def hex (n : Nat) : String :=
  String.ofList (Nat.toDigits 16 n)

/-- One character inside quotes of the given kind. -/
def escape (quote c : Char) : String :=
  if c = '\t' then "\\t"
  else if c = '\r' then "\\r"
  else if c = '\n' then "\\n"
  else if c = '\x00' then "\\0"
  else if c = '\\' then "\\\\"
  else if c = quote then "\\" ++ c.toString
  else if isPlain c then c.toString
  else "\\u\x7b" ++ hex c.toNat ++ "\x7d"

/-- A string between double quotes. -/
def quoteString (s : String) : String :=
  "\"" ++ String.join (s.toList.map (escape '\"')) ++ "\""

/-- A character between single quotes. -/
def quoteChar (c : Char) : String :=
  "'" ++ escape '\'' c ++ "'"

end CZero.Text
