/-!
# Rounding at a decimal place

A number is rounded at `n` places after the point by scaling it with a power of ten, rounding to a
whole number and scaling back; a negative `n` rounds to the left of the point. The power is found
by repeated squaring, so it is inexact above `10 ^ 22`.
-/

namespace SheetTemplate.Number

/-- The whole number next to `x` on the side of zero. -/
def truncate (x : Float) : Float := if x < 0 then x.ceil else x.floor

/-- `r` times the `n`-th power of `a`, which is taken from the repeated squares of `a`. -/
def timesPower (r a : Float) (n : Nat) : Float :=
  let r := if n % 2 = 1 then r * a else r
  if h : n / 2 = 0 then r else timesPower r (a * a) (n / 2)
termination_by n
decreasing_by omega

/-- The `n`-th power of ten. -/
def powerOfTen (n : Nat) : Float := timesPower 1 10 n

/-- The largest number of places, since the scale itself overflows beyond. -/
def maxPlaces : Float := 308

/-- Apply a rounding to whole numbers at `places` decimal places; without a number of places it is
applied as it is. -/
def roundAt (toWhole : Float → Float) (x places : Float) : Float :=
  if places.isNaN then toWhole x
  else
    let places := truncate places
    if places < 0 then
      let scale := powerOfTen (if places < -maxPlaces then maxPlaces else -places).toUInt64.toNat
      toWhole (x / scale) * scale
    else
      let scale := powerOfTen (if maxPlaces < places then maxPlaces else places).toUInt64.toNat
      toWhole (x * scale) / scale

end SheetTemplate.Number
