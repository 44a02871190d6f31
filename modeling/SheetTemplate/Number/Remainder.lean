import SheetTemplate.Number.Binary

/-!
# The exact remainder

The remainder of two floats is `x - n · y` for the whole number `n` that is the quotient cut toward
zero. It is always a float, so no rounding takes place, and it has the sign of `x`.
-/

namespace SheetTemplate.Number

/-- The remainder of two magnitudes, the second one not zero. -/
def Binary.mod (a b : Binary) : Binary :=
  let scale := min a.scale b.scale
  let steps (c : Binary) : Nat := c.steps * Nat.pow 2 (c.scale - scale).toNat
  ⟨steps a % steps b, scale⟩

/-- The remainder of `x` by `y`, undefined for an infinite `x` and for `y = 0`. -/
def remainder (x y : Float) : Float :=
  if x.isNaN || y.isNaN || x.isInf || y == 0 then 0 / 0
  else if y.isInf then x
  else
    let r := ((Binary.ofFloat x).mod (Binary.ofFloat y)).toFloat
    if isSigned x then -r else r

end SheetTemplate.Number
