import SheetTemplate.Number.Order
import SheetTemplate.Number.Remainder
import SheetTemplate.Number.Rounding
import SheetTemplate.Text.LetterCase

/-!
# Built-in functions

A built-in function takes any number of numbers and gives a number; it never fails. A missing
argument is 0, and truth is 1 or 0. Some names are aliases of others, and an alias is exported under
the name that worksheets know.
-/

namespace SheetTemplate.Formula

/-- The number of a truth value. -/
def ofBool (b : Bool) : Float := if b then 1 else 0

/-- Whether a number counts as true: it is defined and not zero. -/
def isTrue (x : Float) : Bool := !(x == 0) && !x.isNaN

namespace Function

/-- The argument at a place, 0 where it is missing. -/
def arg (xs : List Float) (place : Nat) : Float := xs.getD place 0

/-! ## Numbers -/

/-- The sum from left to right; without arguments it is `-0`. -/
def sum (xs : List Float) : Float := xs.foldl (· + ·) (-0)

/-- The mean, 0 without arguments. -/
def average (xs : List Float) : Float := if xs = [] then 0 else sum xs / Float.ofNat xs.length

/-- The smallest argument, undefined ones left aside; 0 without arguments. -/
def min : List Float → Float
  | [] => 0
  | x :: xs => xs.foldl Number.smaller x

/-- The largest argument, undefined ones left aside; 0 without arguments. -/
def max : List Float → Float
  | [] => 0
  | x :: xs => xs.foldl Number.larger x

/-- The product from left to right, 0 without arguments. -/
def product (xs : List Float) : Float := if xs = [] then 0 else xs.foldl (· * ·) 1

/-- The magnitude. -/
def abs (xs : List Float) : Float := (arg xs 0).abs

/-- The number rounded at some places, a half away from zero. -/
def round (xs : List Float) : Float := Number.roundAt Float.round (arg xs 0) (arg xs 1)

/-- The number rounded upward at some places. -/
def roundUp (xs : List Float) : Float := Number.roundAt Float.ceil (arg xs 0) (arg xs 1)

/-- The number rounded downward at some places. -/
def roundDown (xs : List Float) : Float := Number.roundAt Float.floor (arg xs 0) (arg xs 1)

/-- The whole part. -/
def whole (xs : List Float) : Float := Number.truncate (arg xs 0)

/-- The remainder with the sign of the number, 0 for a divisor of zero. -/
def mod (xs : List Float) : Float :=
  if arg xs 1 == 0 then 0 else Number.remainder (arg xs 0) (arg xs 1)

/-- A power. -/
def power (xs : List Float) : Float := (arg xs 0).pow (arg xs 1)

/-- The square root, undefined for a negative number. -/
def sqrt (xs : List Float) : Float := (arg xs 0).sqrt

/-- The sign as 1 or -1; zeros and undefined values stand for themselves. -/
def sign (xs : List Float) : Float :=
  let x := arg xs 0
  if x == 0 || x.isNaN then x else if x < 0 then -1 else 1

/-- The circle constant. -/
def pi (_ : List Float) : Float := Float.ofBits 0x400921FB54442D18

/-- The logarithm to a base, 10 where none is given. -/
def log (xs : List Float) : Float := (arg xs 0).log / (xs.getD 1 10).log

/-- The logarithm to the base 10. -/
def log10 (xs : List Float) : Float := (arg xs 0).log10

/-- The natural logarithm. -/
def ln (xs : List Float) : Float := (arg xs 0).log

/-- The exponential. -/
def exp (xs : List Float) : Float := (arg xs 0).exp

/-! ## Truth -/

/-- The second argument if the first is true, else the third. -/
def cond (xs : List Float) : Float := if isTrue (arg xs 0) then arg xs 1 else arg xs 2

/-- The first argument unless it is undefined, else the second. -/
def ifError (xs : List Float) : Float := if (arg xs 0).isNaN then arg xs 1 else arg xs 0

/-- Whether all arguments are true. -/
def and (xs : List Float) : Float := ofBool (xs.all isTrue)

/-- Whether some argument is true. -/
def or (xs : List Float) : Float := ofBool (xs.any isTrue)

/-- Whether the argument is not true. -/
def not (xs : List Float) : Float := ofBool (!isTrue (arg xs 0))

/-- Whether two numbers are equal. -/
def equal (xs : List Float) : Float := ofBool (arg xs 0 == arg xs 1)

/-- Whether the first number is greater. -/
def greater (xs : List Float) : Float := ofBool (arg xs 1 < arg xs 0)

/-- Whether the first number is not smaller. -/
def greaterOrEqual (xs : List Float) : Float := ofBool (arg xs 1 ≤ arg xs 0)

/-- Whether the first number is smaller. -/
def less (xs : List Float) : Float := ofBool (arg xs 0 < arg xs 1)

/-- Whether the first number is not greater. -/
def lessOrEqual (xs : List Float) : Float := ofBool (arg xs 0 ≤ arg xs 1)

/-- Whether the first number lies between the other two, these included. -/
def between (xs : List Float) : Float :=
  ofBool (arg xs 1 ≤ arg xs 0 && arg xs 0 ≤ arg xs 2)

/-! ## Counts and order -/

/-- How many arguments are true. -/
def count (xs : List Float) : Float := Float.ofNat (xs.countP isTrue)

/-- The middle of some numbers in order, the mean of the two middle ones if their number is even; 0
without numbers. -/
def middle (xs : List Float) : Float :=
  let half := xs.length / 2
  if xs = [] then 0
  else if xs.length % 2 = 0 then (xs.getD (half - 1) 0 + xs.getD half 0) / 2
  else xs.getD half 0

/-- The middle of the arguments that are defined. -/
def median (xs : List Float) : Float := middle (Number.sort (xs.filter fun x => !x.isNaN))

/-! ## What a number is -/

/-- Whether the argument is missing or zero. -/
def isBlank (xs : List Float) : Float := ofBool (arg xs 0 == 0)

/-- Whether the argument is there and defined. -/
def isNumber : List Float → Float
  | [] => 0
  | x :: _ => ofBool (!x.isNaN)

/-- Whether the whole part is even. -/
def isEven (xs : List Float) : Float :=
  ofBool (Number.remainder (Number.truncate (arg xs 0)) 2 == 0)

/-- Whether the whole part is odd. -/
def isOdd (xs : List Float) : Float :=
  ofBool (Number.remainder (Number.truncate (arg xs 0)).abs 2 == 1)

/-! ## Loans and days -/

/-- The payment per period of a loan with constant payments, from the rate, the number of periods
and the sum lent. -/
def payment (xs : List Float) : Float :=
  let rate := arg xs 0
  let periods := arg xs 1
  let present := arg xs 2
  if periods == 0 then 0
  else if rate == 0 then -present / periods
  else
    let growth := (1 + rate).pow periods
    (-(present * rate * growth)) / (growth - 1)

/-- The number of a weekday, 0 for a number that is none. -/
def weekday (xs : List Float) : Float :=
  if 1 ≤ arg xs 0 && arg xs 0 ≤ 7 then arg xs 0 else 0

end Function

/-- A built-in function under one of its names. -/
structure Function where
  name : String
  /-- The name on a worksheet. -/
  exportName : String
  apply : List Float → Float

namespace Function

/-- A function that worksheets know by the same name. -/
def native (name : String) (apply : List Float → Float) : Function := ⟨name, name, apply⟩

/-- All built-in functions, aliases included. -/
def catalogue : List Function := [
  native "SUM" sum,
  ⟨"SUMME", "SUM", sum⟩,
  native "AVERAGE" average,
  ⟨"AVG", "AVERAGE", average⟩,
  ⟨"GEMIDDELDE", "AVERAGE", average⟩,
  native "MIN" min,
  native "MAX" max,
  native "ABS" abs,
  native "ROUND" round,
  native "ROUNDUP" roundUp,
  native "CEILING" roundUp,
  native "ROUNDDOWN" roundDown,
  native "FLOOR" roundDown,
  native "INT" whole,
  native "TRUNC" whole,
  native "MOD" mod,
  native "POWER" power,
  native "SQRT" sqrt,
  native "SIGN" sign,
  native "PI" pi,
  native "LOG" log,
  native "LOG10" log10,
  native "LN" ln,
  native "EXP" exp,
  native "PRODUCT" product,
  native "SUMPRODUCT" sum,
  native "IF" cond,
  native "IFERROR" ifError,
  native "AND" and,
  native "OR" or,
  native "NOT" not,
  native "EQUAL" equal,
  native "GT" greater,
  native "GTE" greaterOrEqual,
  native "LT" less,
  native "LTE" lessOrEqual,
  native "BETWEEN" between,
  native "COUNT" count,
  native "COUNTA" count,
  native "MEDIAN" median,
  native "ISBLANK" isBlank,
  native "ISNUMBER" isNumber,
  native "ISEVEN" isEven,
  native "ISODD" isOdd,
  native "PMT" payment,
  native "WEEKDAY" weekday]

/-- The built-in function of a name, in any letter case. -/
def find? (name : String) : Option Function :=
  catalogue.find? fun f => f.name = Text.upper name

/-- The name under which a call is exported; functions that are not built in keep theirs. -/
def exportNameOf (name : String) : String :=
  match find? name with
  | some f => f.exportName
  | none => name

/-- The value of a call. A function that is not built in gives its first argument, 0 without any. -/
def call (name : String) (xs : List Float) : Float :=
  match find? name with
  | some f => f.apply xs
  | none => arg xs 0

end Function
end SheetTemplate.Formula
