import SheetTemplate.Number.Decimal

/-!
# Digits and the point

A `Layout` is a list of digits with a place for the point. Written out in full, it has digits in
front of the point and digits behind it; `Layout.toFloat` reads these back.
-/

namespace SheetTemplate.Number

/-- The number `0.d₁d₂… · 10 ^ point` of the digits `d₁d₂…`. -/
structure Layout where
  digits : List Char
  point : Int
  deriving DecidableEq, Repr

namespace Layout

/-- The layout of zero. -/
def zero : Layout := ⟨[], 0⟩

/-- The digits without the zeros at their end. -/
def significant (ds : List Char) : List Char := (ds.reverse.dropWhile (· == '0')).reverse

/-- The layout of a decimal that is not zero. -/
def ofDecimal (d : Decimal) : Layout :=
  let ds := digitsOfNat d.digits
  ⟨significant ds, d.exponent + ds.length⟩

/-- The digits in front of the point, `0` where there are none. -/
def whole (l : Layout) : List Char :=
  if l.point ≤ 0 then ['0']
  else l.digits.take l.point.toNat ++ List.replicate (l.point.toNat - l.digits.length) '0'

/-- The digits behind the point. -/
def fraction (l : Layout) : List Char :=
  if l.point ≤ 0 then List.replicate (-l.point).toNat '0' ++ l.digits
  else l.digits.drop l.point.toNat

/-- The number written out in full, with a point only where digits follow it. -/
def plain (l : Layout) : List Char :=
  l.whole ++ if l.fraction = [] then [] else '.' :: l.fraction

/-- The float that the written number is read as. -/
def toFloat (l : Layout) : Float := ofDigits l.whole l.fraction

end Layout

end SheetTemplate.Number
