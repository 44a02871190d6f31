/-!
# Column letters

Worksheet columns are counted from 1 and written with letters: `A` to `Z`, then `AA`. There is no
letter for zero, so every column has one spelling in capitals. Letters are read in either case, and
`columnOfLetters` refuses every column beyond the last one of a worksheet.
-/

namespace SheetTemplate.Cell

/-- The last column of a worksheet, `XFD`. -/
def maxColumn : Nat := 16384

/-- The last row of a worksheet. -/
def maxRow : Nat := 1048576

/-- The largest count that is told apart; larger ones are cut down to it. -/
def maxCount : Nat := 4294967295

/-- Why a text is not a cell reference. The last four causes carry the text without its blanks. -/
inductive ReferenceError
  | emptyLetters
  | invalidLetter (c : Char)
  | columnOutOfBounds (column : Nat)
  | emptyReference
  | missingLetters (text : String)
  | missingRow (text : String)
  | invalidRow (text : String)
  | rowOutOfRange (text : String)
  deriving DecidableEq, Repr

namespace ReferenceError

/-- The wording of a cause other than a column out of bounds. -/
def invalid (cause : String) : String := "Invalid cell reference: " ++ cause

/-- The wording of the error. -/
def message : ReferenceError → String
  | emptyLetters => invalid "empty column letters"
  | invalidLetter c => invalid ("invalid column letter '" ++ String.singleton c ++ "'")
  | columnOutOfBounds column =>
    "Column position " ++ Nat.repr column ++ " out of bounds (max: " ++ Nat.repr maxColumn ++ ")"
  | emptyReference => invalid "empty reference"
  | missingLetters text => invalid ("no column letters in '" ++ text ++ "'")
  | missingRow text => invalid ("no row number in '" ++ text ++ "'")
  | invalidRow text => invalid ("invalid row number in '" ++ text ++ "'")
  | rowOutOfRange text => invalid ("row number out of range in '" ++ text ++ "'")

end ReferenceError

/-- The capital letter at a place of the alphabet, `A` being at place 0. -/
def letterAt (place : Nat) : Char := Char.ofNat ('A'.toNat + place)

/-- The letters of a column; column 0 has none. -/
def lettersOfColumn (column : Nat) : List Char :=
  if column = 0 then []
  else lettersOfColumn ((column - 1) / 26) ++ [letterAt ((column - 1) % 26)]
termination_by column
decreasing_by omega

/-- The number of a letter, from 1 for `A` to 26 for `Z`, in either case. -/
def letterRank (c : Char) : Nat := c.toUpper.toNat - 'A'.toNat + 1

/-- Take up one more letter, cutting the count at `maxCount`. -/
def addLetter (column : Nat) (c : Char) : Nat :=
  min (min (column * 26) maxCount + letterRank c) maxCount

/-- The column that some letters spell. -/
def columnOfLetters (cs : List Char) : Except ReferenceError Nat :=
  if cs = [] then .error .emptyLetters
  else
    match cs.find? (fun c => !c.isAlpha) with
    | some c => .error (.invalidLetter c)
    | none =>
      let column := cs.foldl addLetter 0
      if maxColumn < column then .error (.columnOutOfBounds column) else .ok column

end SheetTemplate.Cell
