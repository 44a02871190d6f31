import SheetTemplate.Json

/-!
# The numbers of a document

A float is read from the digits that fit into 64 bits, scaled by one power of ten; further digits
before the point only raise the exponent, and further digits behind it are dropped. A number that is
too large is refused, one that is too small is 0. A count is written as digits alone.
-/

namespace SheetTemplate.Json

/-- The largest count of a document. -/
def maxCount : Nat := Nat.pow 2 64 - 1

/-- Take up digits as long as the number fits into 64 bits, and tell how many are left over. -/
def absorb : Nat → List Char → Nat × Nat
  | n, [] => (n, 0)
  | n, d :: ds =>
    let next := 10 * n + (d.toNat - '0'.toNat)
    if next ≤ maxCount then absorb next ds else (n, ds.length + 1)

/-- The float nearest to a power of ten. -/
def powerOfTen (n : Nat) : Float := Float.ofScientific 1 false n

/-- A float times a power of ten, where it is not too large. A power below `10 ^ -308` is taken in
two steps. -/
def scale? (x : Float) : Int → Option Float
  | .ofNat n =>
    if n ≤ 308 then
      let y := x * powerOfTen n
      if y.isInf then none else some y
    else if x == 0 then some x
    else none
  | .negSucc n =>
    if n < 308 then some (x / powerOfTen (n + 1))
    else if n < 616 then some (x / powerOfTen 308 / powerOfTen (n + 1 - 308))
    else some 0

namespace Numeral

/-- The exponent of a number. -/
def power (n : Numeral) : Int :=
  let e : Int := Number.natOfDigits n.exponent
  if n.exponentSign = ['-'] then -e else e

/-- The float that a number is read as, unless it is too large. -/
def toFloat? (n : Numeral) : Option Float :=
  let (front, left) := absorb 0 n.whole
  let (digits, dropped) := absorb front n.fraction
  let power := n.power + (left : Int) - ((n.fraction.length - dropped : Nat) : Int)
  (scale? (Float.ofNat digits) power).map fun x => if n.negative then -x else x

/-- The count that a number is read as: digits alone, without sign, point or exponent. -/
def toNat? (n : Numeral) : Option Nat :=
  if n.negative ∨ n.fraction ≠ [] ∨ n.exponent ≠ [] then none
  else
    let count := Number.natOfDigits n.whole
    if count ≤ maxCount then some count else none

end Numeral

end SheetTemplate.Json
