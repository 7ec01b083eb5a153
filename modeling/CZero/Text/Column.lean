/-!
# Columns

Fields of a listing are padded with blanks to a least width, counted in characters. A longer field
is left as it is.
-/

namespace CZero.Text

/-- `n` blanks. -/
def blanks (n : Nat) : String :=
  String.ofList (List.replicate n ' ')

/-- A field that starts at the left edge of its column. -/
def alignLeft (width : Nat) (s : String) : String :=
  s ++ blanks (width - s.length)

/-- A field that ends at the right edge of its column. -/
def alignRight (width : Nat) (s : String) : String :=
  blanks (width - s.length) ++ s

/-- A number in hexadecimal with at least `width` digits, after `0x`. -/
def hexWord (width n : Nat) : String :=
  let digits := Nat.toDigits 16 n
  "0x" ++ String.ofList (List.replicate (width - digits.length) '0' ++ digits)

end CZero.Text
