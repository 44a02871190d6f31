import SheetTemplate.Formula.Token

/-!
# From text to tokens

`tokenize` never fails: characters that start no token are skipped, and tokens beyond a cap are
dropped. A minus sign belongs to the number that follows it at once, if an operand has to follow;
otherwise it is an operator.
-/

namespace SheetTemplate.Formula

/-- The characters that a name starts with. -/
def isNameStart (c : Char) : Bool := c.isAlpha || c = '_'

/-- The characters of a name. -/
def isNameChar (c : Char) : Bool := c.isAlphanum || c = '_'

/-- Whether a text starts with a number: with a digit, or with a point and a digit. -/
def startsNumber : List Char → Bool
  | '.' :: c :: _ => c.isDigit
  | c :: _ => c.isDigit
  | [] => false

/-- The number that a text starts with, and the rest of the text. -/
def takeNumber (cs : List Char) : Float × List Char :=
  let whole := cs.takeWhile Char.isDigit
  match cs.dropWhile Char.isDigit with
  | '.' :: rest =>
    (Number.ofDigits whole (rest.takeWhile Char.isDigit), rest.dropWhile Char.isDigit)
  | rest => (Number.ofDigits whole [], rest)

/-- The number or name that a text starts with, and the rest of the text. -/
def takeWord : List Char → Option (Token × List Char)
  | [] => none
  | c :: cs =>
    if startsNumber (c :: cs) then
      let (x, rest) := takeNumber (c :: cs)
      some (.number x, rest)
    else if isNameStart c then
      some (.identifier (String.ofList (c :: cs.takeWhile isNameChar)), cs.dropWhile isNameChar)
    else none

/-- The token that a text starts with, and the rest of the text. A number may have a sign of its
own only where `signed`. -/
def takeToken (signed : Bool) : List Char → Option (Token × List Char)
  | '+' :: cs => some (.operator .add, cs)
  | '-' :: cs =>
    if signed && startsNumber cs then
      let (x, rest) := takeNumber cs
      some (.number (-x), rest)
    else some (.operator .sub, cs)
  | '*' :: cs => some (.operator .mul, cs)
  | '/' :: cs => some (.operator .div, cs)
  | '(' :: cs => some (.openParen, cs)
  | ')' :: cs => some (.closeParen, cs)
  | ',' :: cs => some (.comma, cs)
  | ';' :: cs => some (.comma, cs)
  | '=' :: '=' :: cs => some (.operator .eq, cs)
  | '=' :: cs => some (.operator .eq, cs)
  | '<' :: '=' :: cs => some (.operator .le, cs)
  | '<' :: '>' :: cs => some (.operator .ne, cs)
  | '<' :: cs => some (.operator .lt, cs)
  | '>' :: '=' :: cs => some (.operator .ge, cs)
  | '>' :: cs => some (.operator .gt, cs)
  | cs => takeWord cs

/-- The first token of a text, after the characters that start none, and the rest of the text. -/
def nextToken (signed : Bool) : List Char → Option (Token × List Char)
  | [] => none
  | c :: cs => (takeToken signed (c :: cs)).or (nextToken signed cs)

/-- The first `cap` tokens of a text. -/
def tokensOf : (cap : Nat) → (signed : Bool) → List Char → List Token
  | 0, _, _ => []
  | cap + 1, signed, cs =>
    match nextToken signed cs with
    | none => []
    | some (t, rest) => t :: tokensOf cap t.precedesOperand rest

/-- The first `cap` tokens of a formula body. -/
def tokenize (cap : Nat) (body : List Char) : List Token := tokensOf cap true body

end SheetTemplate.Formula
