/-!
# The range of JSON numbers

A number must be in the range of 64-bit floats. It is judged by its leading digits, as many as fit a
64-bit word, scaled by a power of ten; both factors and their product are rounded to 53 bits.

## Main definitions

- `Decimal` — the digits and the exponent of a number
- `Decimal.inRange` — the number is not too large
-/

namespace ClassTemplates

/-- The parts of a number without its sign: digits before and behind the point, and the exponent. -/
structure Decimal where
  whole : List Nat
  fraction : List Nat
  negativeExponent : Bool
  exponent : List Nat
  deriving DecidableEq, Repr

namespace Decimal

/-- The largest 64-bit word. -/
def wordMax : Nat := UInt64.size - 1

/-- The number with its bits below the leading 53 rounded away, a half to the even neighbour. -/
def round53 (n : Nat) : Nat :=
  if n < Nat.pow 2 53 then n
  else
    let unit := Nat.pow 2 (n.log2 - 52)
    let q := n / unit
    let r := n % unit
    if 2 * r > unit || (2 * r == unit && q % 2 == 1) then (q + 1) * unit else q * unit

/-- The least number that rounds beyond the largest 64-bit float. -/
def overflowBound : Nat := Nat.pow 2 1024 - Nat.pow 2 970

/-- The leading digits of `digits` behind those of `n`, as long as they fit a word, and the number
of digits that are left out. -/
def leading (n : Nat) : List Nat → Nat × Nat
  | [] => (n, 0)
  | d :: digits =>
    if n * 10 + d ≤ wordMax then leading (n * 10 + d) digits else (n, digits.length + 1)

/-- The largest exponent that is told apart from larger ones. -/
def exponentMax : Nat := 2147483647

/-- The exponent that digits spell; one more than `exponentMax` stands for everything larger. -/
def exponentOf (digits : List Nat) : Nat :=
  digits.foldl (fun n d => min (n * 10 + d) (exponentMax + 1)) 0

/-- The leading digits as a word and the exponent of ten that goes with them, without the written
exponent. -/
def significand (x : Decimal) : Nat × Int :=
  let (n, dropped) := leading 0 x.whole
  let (n, ignored) := leading n x.fraction
  (n, (dropped : Int) - (x.fraction.length - ignored : Nat))

/-- A word times a power of ten, both rounded, does not exceed the range. -/
def scaledInRange (n exponent : Nat) : Bool :=
  n == 0 || (exponent ≤ 308 && round53 n * round53 (Nat.pow 10 exponent) < overflowBound)

/-- The number is not too large for a 64-bit float. -/
def inRange (x : Decimal) : Bool :=
  let (n, scale) := x.significand
  let written := exponentOf x.exponent
  if written > exponentMax then n == 0 || x.negativeExponent
  else
    let total := if x.negativeExponent then scale - written else scale + written
    total < 0 || scaledInRange n total.toNat

end Decimal

end ClassTemplates
