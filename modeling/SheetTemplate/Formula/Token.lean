import SheetTemplate.Number.Text

/-!
# Tokens

The words of a formula: numbers, names, operators, parentheses and the separator of arguments. Each
token has one text, in which it is displayed and exported.
-/

namespace SheetTemplate.Formula

/-- An operator between two operands. -/
inductive Operator
  | add
  | sub
  | mul
  | div
  | eq
  | ne
  | lt
  | le
  | gt
  | ge
  deriving DecidableEq, Repr

namespace Operator

/-- How tightly an operator binds: comparisons less than sums, sums less than products. -/
def precedence : Operator → Nat
  | eq | ne | lt | le | gt | ge => 1
  | add | sub => 2
  | mul | div => 3

/-- The spelling of an operator on a worksheet. -/
def chars : Operator → List Char
  | add => ['+']
  | sub => ['-']
  | mul => ['*']
  | div => ['/']
  | eq => ['=']
  | ne => ['<', '>']
  | lt => ['<']
  | le => ['<', '=']
  | gt => ['>']
  | ge => ['>', '=']

/-- The spelling of an operator as a string. -/
def symbol (op : Operator) : String := String.ofList op.chars

end Operator

/-- A word of a formula. -/
inductive Token
  /-- A number, possibly with a minus sign of its own. -/
  | number (x : Float)
  /-- The name of a column, a system variable or a function. -/
  | identifier (name : String)
  | operator (op : Operator)
  | openParen
  | closeParen
  /-- The separator of arguments, written `,` or `;`. -/
  | comma
  deriving DecidableEq

namespace Token

/-- The text of a token. -/
def chars : Token → List Char
  | number x => Number.chars x
  | identifier name => name.toList
  | operator op => op.chars
  | openParen => ['(']
  | closeParen => [')']
  | comma => [',']

/-- The text of a token as a string. -/
def text (t : Token) : String := String.ofList t.chars

/-- Whether an operand has to follow the token, so that a `-` after it is a sign. -/
def precedesOperand : Token → Bool
  | operator _ | openParen | comma => true
  | _ => false

end Token
end SheetTemplate.Formula
