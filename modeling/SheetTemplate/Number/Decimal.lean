import SheetTemplate.Number.Binary

/-!
# Decimal numbers

Digits around a point are read as the nearest float, an exact half going to the even neighbour.
Every finite float has an exact value with finitely many decimal digits, `Decimal.ofFloat`.
-/

namespace SheetTemplate.Number

/-- The whole number that a list of decimal digits spells; without digits it is 0. -/
def natOfDigits (ds : List Char) : Nat := ds.foldl (fun n c => 10 * n + (c.toNat - '0'.toNat)) 0

/-- The decimal digits of a whole number, the first one not `0` unless it is the only one. -/
def digitsOfNat (n : Nat) : List Char := Nat.toDigits 10 n

/-- The float nearest to the digits before and behind a point, infinite when they are too large. -/
def ofDigits (whole fraction : List Char) : Float :=
  Float.ofScientific (natOfDigits (whole ++ fraction)) true fraction.length

/-- The number `digits · 10 ^ exponent`. -/
structure Decimal where
  digits : Nat
  exponent : Int
  deriving DecidableEq, Repr

/-- The exact value of the magnitude of a finite float. -/
def Decimal.ofFloat (x : Float) : Decimal :=
  let b := Binary.ofFloat x
  match b.scale with
  | .ofNat e => ⟨b.steps * Nat.pow 2 e, 0⟩
  | .negSucc e => ⟨b.steps * Nat.pow 5 (e + 1), -(e + 1 : Int)⟩

end SheetTemplate.Number
