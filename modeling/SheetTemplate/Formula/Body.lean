import SheetTemplate.Column.Index
import SheetTemplate.Formula.Function
import SheetTemplate.Formula.Parser
import SheetTemplate.NameMap

/-!
# The worksheet body of a formula

A formula is exported as the text that stands behind the `=` of a worksheet cell. Names become
references, function names become those of worksheets, and nothing is added: no blanks and no
parentheses. A formula that is missing its `=`, empty or too long is exported as `0`; one that is no
expression is exported token by token, so that the worksheet reports the error.
-/

namespace SheetTemplate.Formula

/-- Whether an opening parenthesis follows. -/
def opens : List Token → Bool
  | .openParen :: _ => true
  | _ => false

/-- Tokens written one after the other, where `reference` writes the names that are not followed by
an opening parenthesis. -/
def tokensBody (reference : String → String) : List Token → List Char
  | [] => []
  | .identifier name :: ts =>
    (if opens ts then Function.exportNameOf name else reference name).toList ++
      tokensBody reference ts
  | t :: ts => t.chars ++ tokensBody reference ts

namespace Expr

mutual

/-- The text of a tree, where `reference` writes the names. -/
def body (reference : String → String) : Expr → List Char
  | number x => (Token.number x).chars
  | identifier name => (reference name).toList
  | binary op left right => left.body reference ++ op.chars ++ right.body reference
  | negate operand => '-' :: operand.body reference
  | group inner => '(' :: inner.body reference ++ [')']
  | call name args =>
    (Function.exportNameOf name).toList ++ '(' :: argsBody reference args ++ [')']
  | invalid tokens => tokensBody reference tokens

/-- The texts of some trees with commas between them. -/
def argsBody (reference : String → String) : List Expr → List Char
  | [] => []
  | [e] => e.body reference
  | e :: es => e.body reference ++ ',' :: argsBody reference es

end

end Expr

/-- The worksheet body of a formula, where `reference` writes the names. -/
def bodyChars (l : Limits) (reference : String → String) (formula : List Char) : List Char :=
  match parseChars l formula with
  | .ok e => e.body reference
  | .error (.malformed _) | .error (.tooDeep _) =>
    tokensBody reference (tokenize l.maxLength formula.tail)
  | .error .missingEquals | .error .empty | .error (.tooLong _ _) => ['0']

/-- The worksheet body of a formula as a string. -/
def body (l : Limits) (reference : String → String) (formula : String) : String :=
  String.ofList (bodyChars l reference formula.toList)

/-- The references of the system variables on a worksheet. -/
abbrev VariableRefs := NameMap String

/-- Lay variables out below each other in one column, from row `first` on. -/
def VariableRefs.inColumn (names : List String) (column first : Nat) : VariableRefs :=
  .ofList (names.zipIdx first |>.map fun p => (p.1, (Cell.Reference.absolute column p.2).text))

/-- The row of a worksheet on which formulas are placed. -/
structure Placement where
  columns : Column.Index
  row : Nat
  refs : VariableRefs

/-- The reference of a name: the cell of a column, else the reference of a system variable, else the
name itself. -/
def Placement.reference (p : Placement) (name : String) : String :=
  match p.columns.cell? name p.row with
  | some cell => cell.text
  | none => (p.refs.get? name).getD name

end SheetTemplate.Formula
