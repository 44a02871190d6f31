import SheetTemplate.Number.Layout

/-!
# The fewest digits that read back

To write a float with `n` digits, its exact decimal value is cut after `n` digits, and the two
neighbours on that grid are its candidates. The first grid with a candidate that reads back as the
same float wins; of two such candidates the nearer one is taken, and for an exact half the rule
`Tie` decides.
-/

namespace SheetTemplate.Number

/-- What becomes of a value halfway between two decimals. -/
inductive Tie
  | up
  | toEven
  deriving DecidableEq, Repr

/-- The two neighbours of `d` among the decimals with `n` digits, the nearer one first. -/
def Decimal.neighbours (tie : Tie) (d : Decimal) (n : Nat) : Decimal × Decimal :=
  let dropped := (digitsOfNat d.digits).length - n
  let step := Nat.pow 10 dropped
  let below : Decimal := ⟨d.digits / step, d.exponent + dropped⟩
  let above : Decimal := ⟨d.digits / step + 1, d.exponent + dropped⟩
  let rest := d.digits % step
  if 2 * rest < step then (below, above)
  else if step < 2 * rest then (above, below)
  else
    match tie with
    | .up => (above, below)
    | .toEven => if below.digits % 2 = 0 then (below, above) else (above, below)

namespace Layout

/-- A layout with `n` digits that reads back as `x`, where there is one. -/
def withDigits? (tie : Tie) (x : Float) (n : Nat) : Option Layout :=
  let (near, far) := (Decimal.ofFloat x).neighbours tie n
  if (ofDecimal near).toFloat = x then some (ofDecimal near)
  else if (ofDecimal far).toFloat = x then some (ofDecimal far)
  else none

/-- The layout with the fewest digits that reads back as a finite float without sign. -/
def shortest (tie : Tie) (x : Float) : Layout :=
  if x = 0 then zero
  else ((List.range' 1 17).findSome? (withDigits? tie x)).getD (ofDecimal (.ofFloat x))

end Layout

end SheetTemplate.Number
