import SheetTemplate.Number.Text

/-!
# JSON values

The values of a JSON document. A number is kept in the digits it is written with, since its reader
decides whether it stands for a count or for a float. A string is kept as its text, or as nothing
where its escapes name half of a character: only a reader that uses the string refuses it then.
-/

namespace SheetTemplate.Json

/-- A number as it is written; a number without fraction or exponent has no digits there. -/
structure Numeral where
  negative : Bool
  whole : List Char
  fraction : List Char
  exponentSign : List Char
  exponent : List Char
  deriving DecidableEq, Repr

namespace Numeral

/-- The text of a number. -/
def chars (n : Numeral) : List Char :=
  (if n.negative then ['-'] else []) ++ n.whole ++
    (if n.fraction = [] then [] else '.' :: n.fraction) ++
    (if n.exponent = [] then [] else 'e' :: (n.exponentSign ++ n.exponent))

/-- The text of a finite float in a document: its fewest digits, an exact half going to the even
neighbour. Zero and magnitudes from `10 ^ -5` up to below `10 ^ 16` are written in full with at
least one digit behind the point, all others with an exponent and its sign. -/
def ofFloat (x : Float) : Numeral :=
  let l := Number.Layout.shortest .toEven x.abs
  let power := l.point - 1
  if -5 ≤ power ∧ power < 16 then
    ⟨Number.isSigned x, l.whole, if l.fraction = [] then ['0'] else l.fraction, [], []⟩
  else
    ⟨Number.isSigned x, l.digits.take 1, l.digits.drop 1, if power < 0 then ['-'] else ['+'],
      Number.digitsOfNat power.natAbs⟩

/-- A count as it is written. -/
def ofNat (n : Nat) : Numeral := ⟨false, Number.digitsOfNat n, [], [], []⟩

end Numeral

/-- A string: its text, or nothing where its escapes name half of a character. -/
abbrev Text := Option String

/-- A JSON value. The members of an object stand in the order of the document. -/
inductive Value
  | null
  | bool (b : Bool)
  | number (n : Numeral)
  | string (s : Text)
  | array (items : List Value)
  | object (members : List (Text × Value))

namespace Value

/-- The value of a float; one that is infinite or undefined is written as `null`. -/
def ofFloat (x : Float) : Value := if x.isFinite then .number (.ofFloat x) else .null

/-- The value of a text. -/
def ofString (s : String) : Value := .string (some s)

/-- The object of some members. -/
def ofMembers (ms : List (String × Value)) : Value := .object (ms.map fun m => (some m.1, m.2))

end Value

end SheetTemplate.Json
