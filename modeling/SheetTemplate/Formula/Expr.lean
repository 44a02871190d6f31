import SheetTemplate.Formula.Token

/-!
# Formula trees

A formula is read once into a tree. Names stay in its leaves, so that one tree is both evaluated and
exported. Parentheses are kept, and so is an argument that is no expression, as its tokens.
-/

namespace SheetTemplate.Formula

/-- The tree of a formula. -/
inductive Expr
  | number (x : Float)
  | identifier (name : String)
  | binary (op : Operator) (left right : Expr)
  | negate (operand : Expr)
  | group (inner : Expr)
  /-- A call, its name kept as it is written. -/
  | call (name : String) (args : List Expr)
  /-- An argument that is no expression; its value is 0. -/
  | invalid (tokens : List Token)

/-- The names among some tokens, function names included. -/
def tokenNames (ts : List Token) : List String :=
  ts.filterMap fun
    | .identifier name => some name
    | _ => none

namespace Expr

mutual

/-- The names that a tree refers to, in the order of their appearance. -/
def names : Expr → List String
  | number _ => []
  | identifier name => [name]
  | binary _ left right => left.names ++ right.names
  | negate operand => operand.names
  | group inner => inner.names
  | call _ args => namesOfAll args
  | invalid tokens => tokenNames tokens

/-- The names that some trees refer to. -/
def namesOfAll : List Expr → List String
  | [] => []
  | e :: es => e.names ++ namesOfAll es

end

/-- The names that a tree refers to, each once, in the order of their first appearance. -/
def identifiers (e : Expr) : List String := e.names.eraseDups

/-- Whether a tree refers to a name. -/
def references (e : Expr) (name : String) : Bool := e.identifiers.contains name

mutual

/-- How deeply calls are nested; a tree without calls has depth 0. -/
def depth : Expr → Nat
  | number _ | identifier _ | invalid _ => 0
  | binary _ left right => max left.depth right.depth
  | negate operand => operand.depth
  | group inner => inner.depth
  | call _ args => depthOfAll args + 1

/-- The greatest depth among some trees. -/
def depthOfAll : List Expr → Nat
  | [] => 0
  | e :: es => max e.depth (depthOfAll es)

end

end Expr
end SheetTemplate.Formula
