import SheetTemplate.Number.Binary

/-!
# A total order of floats

Floats are put in order by the whole number `rank`, which tells `-0` from `0` and agrees with `<`
wherever that tells two floats apart. The smaller and the larger of two floats are taken by `<`.
-/

namespace SheetTemplate.Number

/-- The place of a float in the order; negative floats are ranked by their bits downward. -/
def rank (x : Float) : Int :=
  let bits := x.toBits.toNat
  if isSigned x then (Nat.pow 2 63 : Int) - 1 - bits else bits

/-- The list in increasing order. -/
def sort (xs : List Float) : List Float := xs.mergeSort (fun a b => rank a ≤ rank b)

/-- The smaller of two floats; of a number and an undefined value the number, of equal ones the
first. -/
def smaller (a b : Float) : Float := if a.isNaN then b else if b < a then b else a

/-- The larger of two floats; of a number and an undefined value the number, of equal ones the
first. -/
def larger (a b : Float) : Float := if a.isNaN then b else if a < b then b else a

end SheetTemplate.Number
