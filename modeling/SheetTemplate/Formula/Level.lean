import SheetTemplate.Formula.Token

/-!
# Expression levels

A call with its arguments counts as one item of the expression around it; its arguments are levels
of their own. `closing` finds the tokens inside a pair of parentheses, `items` cuts a level into
items and keeps the first ones, and `splitAtCommas` cuts the inside of a call at its own commas.
-/

namespace SheetTemplate.Formula

/-- The tokens up to the parenthesis that closes an open one with `depth` more open inside it, and
the tokens after it. -/
def closing : (depth : Nat) → List Token → Option (List Token × List Token)
  | _, [] => none
  | 0, .closeParen :: ts => some ([], ts)
  | depth + 1, .closeParen :: ts => (closing depth ts).map fun p => (.closeParen :: p.1, p.2)
  | depth, .openParen :: ts => (closing (depth + 1) ts).map fun p => (.openParen :: p.1, p.2)
  | depth, t :: ts => (closing depth ts).map fun p => (t :: p.1, p.2)

/-- An item of an expression level: a whole call, or any other token. -/
inductive Item
  | call (name : String) (inner : List Token)
  | token (t : Token)
  deriving DecidableEq

/-- The tokens of an item. -/
def Item.tokens : Item → List Token
  | call name inner => .identifier name :: .openParen :: (inner ++ [.closeParen])
  | token t => [t]

/-- The first item of a level, and the tokens after it. A name before an unclosed parenthesis is an
item by itself. -/
def takeItem : List Token → Option (Item × List Token)
  | [] => none
  | .identifier name :: .openParen :: ts =>
    match closing 0 ts with
    | some (inner, rest) => some (.call name inner, rest)
    | none => some (.token (.identifier name), .openParen :: ts)
  | t :: ts => some (.token t, ts)

/-- The first `cap` items of a level. -/
def items : (cap : Nat) → List Token → List Item
  | 0, _ => []
  | cap + 1, ts =>
    match takeItem ts with
    | none => []
    | some (item, rest) => item :: items cap rest

/-- The tokens of the first `cap` items of a level. -/
def firstItems (cap : Nat) (ts : List Token) : List Token := (items cap ts).flatMap Item.tokens

/-- Put a token in front of the first of some arguments. -/
def prepend (t : Token) : List (List Token) → List (List Token)
  | [] => [[t]]
  | arg :: args => (t :: arg) :: args

/-- The arguments between the commas outside all parentheses, of which `depth` are open. -/
def splitAtCommas : (depth : Nat) → List Token → List (List Token)
  | _, [] => [[]]
  | 0, .comma :: ts => [] :: splitAtCommas 0 ts
  | depth, .openParen :: ts => prepend .openParen (splitAtCommas (depth + 1) ts)
  | depth, .closeParen :: ts => prepend .closeParen (splitAtCommas (depth - 1) ts)
  | depth, t :: ts => prepend t (splitAtCommas depth ts)

end SheetTemplate.Formula
