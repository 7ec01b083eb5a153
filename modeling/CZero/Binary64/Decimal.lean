import CZero.Binary64.Basic

/-!
# Decimal numbers

A decimal number is a whole number of digits with a power of ten. Reading one as a binary number
rounds its exact value, so the result is always the nearest. Powers far outside the range of the
format are decided without being computed, whatever their size.
-/

namespace CZero

/-- The number `digits * 10 ^ exponent`. -/
structure Decimal where
  digits : Nat
  exponent : Int
deriving DecidableEq

namespace Decimal

/-- A power of ten. -/
def pow10 (n : Nat) : Nat :=
  Nat.pow 10 n

/-- The whole number that a row of decimal digits writes. -/
def ofDigits (cs : List Char) : Nat :=
  cs.foldl (fun n c => 10 * n + (c.toNat - '0'.toNat)) 0

/-- The binary number nearest to a decimal one.

From `10 ^ 400` on every number is infinite. Below, `digits < 2 ^ (log2 digits + 1)`, so an exponent
under `-(log2 digits + 400)` leaves less than half of the smallest positive number. -/
def toBinary64 (d : Decimal) : Binary64 :=
  if d.digits = 0 then Binary64.signed false 0
  else if d.exponent > 400 then Binary64.signed false Binary64.infinityBits
  else if d.exponent < -(d.digits.log2 + 400 : Int) then Binary64.signed false 0
  else if 0 ≤ d.exponent then Binary64.ofRatio false (d.digits * pow10 d.exponent.toNat) 1
  else Binary64.ofRatio false d.digits (pow10 (-d.exponent).toNat)

/-- A decimal number in positional notation: no exponent, no trailing zeros after the point, and no
point if nothing would follow it. -/
def positional (d : Decimal) : String :=
  let ds := Nat.toDigits 10 d.digits
  if 0 ≤ d.exponent then
    String.ofList (ds ++ List.replicate d.exponent.toNat '0')
  else
    let places := (-d.exponent).toNat
    let padded := List.replicate (places + 1 - ds.length) '0' ++ ds
    let whole := padded.take (padded.length - places)
    let fraction := ((padded.drop (padded.length - places)).reverse.dropWhile (· == '0')).reverse
    if fraction.isEmpty then String.ofList whole
    else String.ofList (whole ++ '.' :: fraction)

end Decimal

end CZero
