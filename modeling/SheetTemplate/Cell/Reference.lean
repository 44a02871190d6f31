import SheetTemplate.Cell.Letters
import SheetTemplate.Number.Decimal
import SheetTemplate.Text.Blank

/-!
# Cell references

A cell reference names one cell by column and row. In A1 notation it is the column's letters and the
row number, and a `$` in front of either makes that part absolute.
-/

namespace SheetTemplate.Cell

/-- A reference to one cell, its column and row counted from 1. -/
structure Reference where
  column : Nat
  row : Nat
  columnAbsolute : Bool := false
  rowAbsolute : Bool := false
  deriving DecidableEq, Repr

/-- The mark of an absolute column or row, where it is set. -/
def mark (absolute : Bool) : List Char := if absolute then ['$'] else []

/-- Whether a text starts with the mark of an absolute part, and the text after it. -/
def takeMark : List Char → Bool × List Char
  | '$' :: cs => (true, cs)
  | cs => (false, cs)

/-- A row number: decimal digits, with one `+` allowed in front, of at most `maxCount`. -/
def rowOfDigits? (cs : List Char) : Option Nat :=
  let ds := match cs with
    | '+' :: ds => ds
    | ds => ds
  if ds = [] || !ds.all Char.isDigit then none
  else
    let n := Number.natOfDigits ds
    if maxCount < n then none else some n

namespace Reference

/-- The reference with both parts relative. -/
def relative (column row : Nat) : Reference := ⟨column, row, false, false⟩

/-- The reference with both parts absolute. -/
def absolute (column row : Nat) : Reference := ⟨column, row, true, true⟩

/-- The letters of the column. -/
def letters (r : Reference) : String := String.ofList (lettersOfColumn r.column)

/-- The reference in A1 notation. -/
def chars (r : Reference) : List Char :=
  mark r.columnAbsolute ++ lettersOfColumn r.column ++ mark r.rowAbsolute ++
    Number.digitsOfNat r.row

/-- The reference in A1 notation as a string. -/
def text (r : Reference) : String := String.ofList r.chars

/-- Read a reference in A1 notation without blanks around it. -/
def ofChars (cs : List Char) : Except ReferenceError Reference :=
  let column := takeMark cs
  let letters := column.2.takeWhile Char.isAlpha
  let row := takeMark (column.2.dropWhile Char.isAlpha)
  if cs = [] then .error .emptyReference
  else if letters = [] then .error (.missingLetters (String.ofList cs))
  else
    match columnOfLetters letters with
    | .error e => .error e
    | .ok c =>
      if row.2 = [] then .error (.missingRow (String.ofList cs))
      else
        match rowOfDigits? row.2 with
        | none => .error (.invalidRow (String.ofList cs))
        | some r =>
          if r = 0 ∨ maxRow < r then .error (.rowOutOfRange (String.ofList cs))
          else .ok ⟨c, r, column.1, row.1⟩

/-- Read a reference in A1 notation; blanks around it and the case of its letters do not matter. -/
def parse (s : String) : Except ReferenceError Reference := ofChars (Text.trim s.toList)

end Reference

end SheetTemplate.Cell
