import SheetTemplate.Formula.Token

/-!
# What is wrong with a formula

A formula that is no expression has a `Fault`, its first one from the left. The last five faults
cannot arise: they guard the stacks of the parser.
-/

namespace SheetTemplate.Formula

/-- Why some tokens are no expression. -/
inductive Fault
  | missingOperatorBefore (t : Token)
  | missingLeftOperand (op : Operator)
  | missingOperandBeforeClose
  | unmatchedClose
  | commaOutsideCall
  | unclosedCall (name : String)
  | incomplete
  | unclosedGroup
  | missingOperand (op : Operator)
  | emptyGroup
  | emptyOutput
  | missingOperator
  | groupAsOperator
  deriving DecidableEq

/-- The wording of a fault. -/
def Fault.message : Fault → String
  | missingOperatorBefore t => "Missing operator before '" ++ t.text ++ "'"
  | missingLeftOperand op => "Operator '" ++ op.symbol ++ "' is missing its left operand"
  | missingOperandBeforeClose => "Expected an operand before ')'"
  | unmatchedClose => "Unmatched ')'"
  | commaOutsideCall => "Unexpected ',' outside a function call"
  | unclosedCall name => "Unclosed '(' in call to " ++ name
  | incomplete => "Incomplete expression"
  | unclosedGroup => "Unclosed '('"
  | missingOperand op => "Missing operand for '" ++ op.symbol ++ "'"
  | emptyGroup => "Empty parentheses"
  | emptyOutput => "Empty expression"
  | missingOperator => "Missing operator between operands"
  | groupAsOperator => "Unclosed '('"

/-- Why a text is no formula. -/
inductive Error
  | missingEquals
  | tooLong (length max : Nat)
  | empty
  | malformed (fault : Fault)
  | tooDeep (max : Nat)
  deriving DecidableEq

/-- The wording of an error. -/
def Error.message : Error → String
  | missingEquals => "Formula must start with '='"
  | tooLong length max =>
    "Formula is " ++ Nat.repr length ++ " characters long (max: " ++ Nat.repr max ++ ")"
  | empty => "Empty expression"
  | malformed fault => "Parse error: " ++ fault.message
  | tooDeep max => "Function calls nested deeper than " ++ Nat.repr max

end SheetTemplate.Formula
