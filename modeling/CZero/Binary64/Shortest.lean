import CZero.Binary64.Decimal

/-!
# The shortest decimal of a binary number

Many decimals read back as one binary number: all those in the interval halfway to its two
neighbours, ends included when its last bit is even. The text of a number is the decimal of that
interval with the fewest digits, and of several such the nearest.

On the grid of multiples of one power of ten it is enough to look at the two neighbours of the
value: if any grid point lies in the interval, so does one of these two.
-/

namespace CZero.Binary64

/-- A positive value between the ends of the interval that rounds to it; all three are numerators
over the denominator `den`. -/
structure Rounding where
  low : Nat
  mid : Nat
  high : Nat
  den : Nat
  /-- Whether the ends belong to the interval. -/
  closed : Bool

/-- The interval of the reals that round to `m * 2 ^ q`. -/
def rounding (m : Nat) (q : Int) (narrow : Bool) : Rounding :=
  let scale := pow2 (q - 2).toNat
  { low := (4 * m - if narrow then 1 else 2) * scale
    mid := 4 * m * scale
    high := (4 * m + 2) * scale
    den := pow2 (2 - q).toNat
    closed := m % 2 == 0 }

namespace Rounding

/-- The decimal exponent of the leading digit of the value. -/
def leading (r : Rounding) : Int :=
  if r.den ≤ r.mid then ((Nat.toDigits 10 (r.mid / r.den)).length : Int) - 1
  else -(((List.range 400).find? fun j => r.den ≤ r.mid * Decimal.pow10 j).getD 400 : Int)

/-- Whether `x / (up * den)` lies in the interval. -/
def contains (r : Rounding) (up x : Nat) : Bool :=
  if r.closed then r.low * up ≤ x && x ≤ r.high * up
  else r.low * up < x && x < r.high * up

/-- A point of the interval among the multiples of `10 ^ p`: the one nearest to the value, of two
equally near the upper one. -/
def nearestOnGrid? (r : Rounding) (p : Int) : Option Decimal :=
  let up := Decimal.pow10 (-p).toNat
  let unit := Decimal.pow10 p.toNat * r.den
  let below := r.mid * up / unit
  let fitsBelow := r.contains up (below * unit)
  let fitsAbove := r.contains up ((below + 1) * unit)
  let lowerNearer := 2 * (r.mid * up) < (2 * below + 1) * unit
  if fitsBelow && (lowerNearer || !fitsAbove) then some ⟨below, p⟩
  else if fitsAbove then some ⟨below + 1, p⟩
  else none

/-- The decimal with the fewest digits that reads back; seventeen digits always do. -/
def shortest (r : Rounding) : Decimal :=
  let lead := r.leading
  ((List.range 17).findSome? fun (n : Nat) => r.nearestOnGrid? (lead - n)).getD ⟨0, 0⟩

end Rounding

/-- A number as text: its shortest decimal in positional notation. -/
def text (x : Binary64) : String :=
  match x.value with
  | .notANumber => "NaN"
  | .infinite negative => if negative then "-inf" else "inf"
  | .finite negative m q narrow =>
    let magnitude := if m = 0 then "0" else (rounding m q narrow).shortest.positional
    if negative then "-" ++ magnitude else magnitude

end CZero.Binary64
