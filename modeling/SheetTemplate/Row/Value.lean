import SheetTemplate.Number.Text
import SheetTemplate.Text.Blank

/-!
# Row values

Rows come from forms and imports, so a number often arrives as text. Text is read in four ways, and
the first that fits counts: a plain decimal, a clock time in hours, a decimal with a decimal comma,
and at last the number that the text starts with.
-/

namespace SheetTemplate.Row

/-- A value as a row supplies it. -/
inductive Value
  | empty
  | flag (b : Bool)
  | number (x : Float)
  | text (s : String)
  deriving DecidableEq

/-- The sign in front, where there is one, and the text after it. -/
def takeSign : List Char → List Char × List Char
  | '-' :: cs => (['-'], cs)
  | '+' :: cs => (['+'], cs)
  | cs => ([], cs)

/-- The float of the digits around a point, with the sign in front. -/
def signedFloat (sign whole fraction : List Char) : Float :=
  let x := Number.ofDigits whole fraction
  if sign = ['-'] then -x else x

/-- A plain decimal: an optional sign and digits, with at most one point before, between or after
them. -/
def decimal? (cs : List Char) : Option Float :=
  let (sign, body) := takeSign cs
  let whole := body.takeWhile Char.isDigit
  match body.dropWhile Char.isDigit with
  | [] => if whole = [] then none else some (signedFloat sign whole [])
  | '.' :: fraction =>
    if fraction.all Char.isDigit && !(whole ++ fraction).isEmpty then
      some (signedFloat sign whole fraction)
    else none
  | _ => none

/-- The parts of a text between the separators. -/
def splitAt (separator : Char) : List Char → List (List Char)
  | [] => [[]]
  | c :: cs =>
    if c = separator then [] :: splitAt separator cs
    else
      match splitAt separator cs with
      | [] => [[c]]
      | part :: parts => (c :: part) :: parts

/-- Hours, minutes and seconds as hours; there are fewer than sixty minutes and seconds. -/
def hours? (h m s : Float) : Option Float :=
  if 60 ≤ m || 60 ≤ s then none else some (h + m / 60 + s / 3600)

/-- The float of a part of a clock time. -/
def clockPart (ds : List Char) : Float := Number.ofDigits ds []

/-- A clock time, `H:MM` or `H:MM:SS` with any number of digits in each part. -/
def clockTime? (cs : List Char) : Option Float :=
  let parts := splitAt ':' cs
  if parts.all fun p => !p.isEmpty && p.all Char.isDigit then
    match parts with
    | [h, m] => hours? (clockPart h) (clockPart m) 0
    | [h, m, s] => hours? (clockPart h) (clockPart m) (clockPart s)
    | _ => none
  else none

/-- The text with its first comma turned into a point. -/
def commaToPoint : List Char → List Char
  | [] => []
  | c :: cs => if c = ',' then '.' :: cs else c :: commaToPoint cs

/-- A decimal with a decimal comma and no point. -/
def commaDecimal? (cs : List Char) : Option Float :=
  if cs.contains ',' && !cs.contains '.' then decimal? (commaToPoint cs) else none

/-- The sign and digits that a text starts with, and the fraction after them if it has digits. -/
def leadingNumber (cs : List Char) : List Char :=
  let (sign, body) := takeSign cs
  let whole := body.takeWhile Char.isDigit
  match body.dropWhile Char.isDigit with
  | '.' :: rest =>
    let fraction := rest.takeWhile Char.isDigit
    if fraction = [] then sign ++ whole else sign ++ whole ++ '.' :: fraction
  | _ => sign ++ whole

/-- The number of a text without blanks around it; a text that starts with no number is 0. -/
def numberOfChars (cs : List Char) : Float :=
  (decimal? cs <|> clockTime? cs <|> commaDecimal? cs <|> decimal? (leadingNumber cs)).getD 0

namespace Value

/-- The number of a value before infinite and undefined ones are taken out. -/
def rawNumber : Value → Float
  | empty => 0
  | flag b => if b then 1 else 0
  | number x => x
  | text s => numberOfChars (Text.trim s.toList)

/-- The finite number that a formula reads for the value. -/
def toNumber (v : Value) : Float := if v.rawNumber.isFinite then v.rawNumber else 0

/-- Whether the value is missing or a blank text. -/
def isEmpty : Value → Bool
  | empty => true
  | text s => (Text.trim s.toList).isEmpty
  | _ => false

/-- The value as it is displayed. -/
def display : Value → String
  | empty => ""
  | flag b => if b then "true" else "false"
  | number x => Number.display x
  | text s => s

end Value

end SheetTemplate.Row
