/-!
# Floats as binary fractions

A finite float is a whole number of steps, each a power of two. `Binary.ofFloat` reads the steps off
the bits of a float, and `Binary.toFloat` packs them again; both are exact. Powers are written
`Nat.pow`, so that they are the same powers with and without Mathlib.
-/

namespace SheetTemplate.Number

/-- The magnitude `steps · 2 ^ scale`. -/
structure Binary where
  steps : Nat
  scale : Int
  deriving DecidableEq, Repr

namespace Binary

/-- The magnitude of a finite float. -/
def ofFloat (x : Float) : Binary :=
  let bits := x.toBits.toNat
  let power : Nat := bits / Nat.pow 2 52 % Nat.pow 2 11
  let fraction : Nat := bits % Nat.pow 2 52
  if power = 0 then ⟨fraction, -1074⟩ else ⟨Nat.pow 2 52 + fraction, (power : Int) - 1075⟩

/-- The float of a magnitude that some finite float has. -/
def toFloat (b : Binary) : Float :=
  if b.steps = 0 then 0
  else
    let top : Int := (b.steps.log2 : Int) + b.scale
    if -1022 ≤ top then
      let mantissa := b.steps * Nat.pow 2 (52 - b.steps.log2)
      Float.ofBits (UInt64.ofNat ((top + 1022).toNat * Nat.pow 2 52 + mantissa))
    else Float.ofBits (UInt64.ofNat (b.steps * Nat.pow 2 (b.scale + 1074).toNat))

end Binary

/-- Whether the sign bit is set, as it is for `-0`. -/
def isSigned (x : Float) : Bool := Nat.pow 2 63 ≤ x.toBits.toNat

end SheetTemplate.Number
