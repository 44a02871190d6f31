import SheetTemplate.Number.Shortest

/-!
# The text of a number

Displayed values and formulas show a float with its fewest digits, written out in full and never
with an exponent. An exact half between two decimals goes up.
-/

namespace SheetTemplate.Number

/-- The sign of a number that is negative or `-0`. -/
def sign (x : Float) : List Char := if isSigned x then ['-'] else []

/-- The text of a float. -/
def chars (x : Float) : List Char :=
  if x.isNaN then ['N', 'a', 'N']
  else if x.isInf then sign x ++ ['i', 'n', 'f']
  else sign x ++ (Layout.shortest .up x.abs).plain

/-- The text of a float as a string. -/
def display (x : Float) : String := String.ofList (chars x)

end SheetTemplate.Number
