import SheetTemplate.Formula.Function
import SheetTemplate.Formula.Parser
import SheetTemplate.NameMap

/-!
# The value of a formula

A formula has a value in every scope: a name without a value is 0, a quotient by zero is 0, truth is
1 or 0, and so a text that is no formula is 0 as well. Only functions and overflow give values that
are infinite or undefined.
-/

namespace SheetTemplate.Formula

/-- The values of the names that a formula may use. -/
abbrev Scope := NameMap Float

/-- The value of an operator between two values. -/
def Operator.apply : Operator → Float → Float → Float
  | add, x, y => x + y
  | sub, x, y => x - y
  | mul, x, y => x * y
  | div, x, y => if y == 0 then 0 else x / y
  | eq, x, y => ofBool (x == y)
  | ne, x, y => ofBool (!(x == y))
  | lt, x, y => ofBool (x < y)
  | le, x, y => ofBool (x ≤ y)
  | gt, x, y => ofBool (y < x)
  | ge, x, y => ofBool (y ≤ x)

/-- The value of a name, 0 without one. -/
def Scope.read (s : Scope) (name : String) : Float := (s.get? name).getD 0

namespace Expr

mutual

/-- The value of a tree, where `value` gives the values of names. -/
def eval (value : String → Float) : Expr → Float
  | number x => x
  | identifier name => value name
  | binary op left right => op.apply (left.eval value) (right.eval value)
  | negate operand => -operand.eval value
  | group inner => inner.eval value
  | call name args => Function.call name (evalAll value args)
  | invalid _ => 0

/-- The values of some trees. -/
def evalAll (value : String → Float) : List Expr → List Float
  | [] => []
  | e :: es => e.eval value :: evalAll value es

end

end Expr

/-- The value of a formula in a scope; a text that is no formula is 0. -/
def evaluate (l : Limits) (s : Scope) (formula : String) : Float :=
  match parse l formula with
  | .ok e => e.eval s.read
  | .error _ => 0

end SheetTemplate.Formula
