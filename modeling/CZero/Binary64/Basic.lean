/-!
# Binary floating-point numbers of 64 bits

A number of this format is its bit pattern: one sign bit, eleven exponent bits and 52 fraction bits.
A finite one is `m * 2 ^ q` with `m < 2 ^ 53` and `q ≥ -1074`. No arithmetic is needed on them here:
numbers enter by rounding an exact ratio, and leave as text or as bits.
-/

namespace CZero

/-- A 64-bit binary floating-point number, given by its bits. -/
structure Binary64 where
  bits : UInt64
deriving DecidableEq

namespace Binary64

/-- A power of two. -/
def pow2 (n : Nat) : Nat :=
  Nat.pow 2 n

/-- The quotient of two numbers rounded to the nearest whole, a half to the even neighbour. -/
def roundDiv (num den : Nat) : Nat :=
  let low := num / den
  let rest := num % den
  if 2 * rest < den || (2 * rest == den && low % 2 == 0) then low else low + 1

/-- The bit pattern with the given sign over the given 63 other bits. -/
def signed (negative : Bool) (magnitude : Nat) : Binary64 :=
  ⟨UInt64.ofNat (if negative then pow2 63 + magnitude else magnitude)⟩

/-- The 63 bits of infinity; every larger pattern is not a number. -/
def infinityBits : Nat := 0x7ff * pow2 52

/-- The exponent `q` for which `num / den` has its leading bit at `2 ^ (q + 52)`, or the least
exponent if the ratio is too small for that. -/
def unitExponent (num den : Nat) : Int :=
  let guess : Int := (num.log2 : Int) - den.log2 - 52
  let lead := if 0 ≤ guess then den * pow2 (guess.toNat + 52) else den * pow2 52
  let value := if 0 ≤ guess then num else num * pow2 (-guess).toNat
  max (-1074) (if value < lead then guess - 1 else guess)

/-- The number nearest to `num / den`, a half going to the even neighbour. What is too large
becomes infinity. -/
def ofRatio (negative : Bool) (num den : Nat) : Binary64 :=
  if num = 0 then signed negative 0
  else
    let q := unitExponent num den
    let m := if 0 ≤ q then roundDiv num (den * pow2 q.toNat) else roundDiv (num * pow2 (-q).toNat) den
    -- The leading bit of `m` carries into the exponent field, also when rounding doubled it.
    signed negative (min infinityBits ((q + 1074).toNat * pow2 52 + m))

/-- The number nearest to a 64-bit integer. -/
def ofInt64 (v : Int64) : Binary64 :=
  ofRatio (v < 0) v.toInt.natAbs 1

/-- What a bit pattern stands for. -/
inductive Value where
  | notANumber
  | infinite (negative : Bool)
  /-- The number `m * 2 ^ q`; `narrow` tells that its lower neighbour is only half as far as its
  upper one. -/
  | finite (negative : Bool) (m : Nat) (q : Int) (narrow : Bool)

/-- The value of a bit pattern. -/
def value (x : Binary64) : Value :=
  let n := x.bits.toNat
  let negative := n / pow2 63 == 1
  let field : Nat := n / pow2 52 % pow2 11
  let fraction : Nat := n % pow2 52
  if field == 0x7ff then
    if fraction == 0 then .infinite negative else .notANumber
  else if field == 0 then .finite negative fraction (-1074) false
  else .finite negative (pow2 52 + fraction) ((field : Int) - 1075) (fraction == 0 && field != 1)

end Binary64

end CZero
