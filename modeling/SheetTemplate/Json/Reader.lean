import SheetTemplate.Json

/-!
# Reading JSON

The reader accepts the grammar of JSON and nothing else; blanks are the space, the tab, the line
feed and the carriage return. Whether a number fits, and whether the escapes of a string name whole
characters, is left to the reader of the value.
-/

namespace SheetTemplate.Json

/-- The blanks of JSON. -/
def isBlank (c : Char) : Bool := c = ' ' || c = '\t' || c = '\n' || c = '\r'

/-- The text without the blanks in front. -/
def skipBlanks (cs : List Char) : List Char := cs.dropWhile isBlank

/-! ## Numbers -/

/-- The exponent at the front of a text, and the rest; without an exponent it has no digits. -/
def takeExponent (cs : List Char) : Option ((List Char × List Char) × List Char) :=
  let signed (s cs : List Char) :=
    let ds := cs.takeWhile Char.isDigit
    if ds = [] then none else some ((s, ds), cs.dropWhile Char.isDigit)
  let exponent : List Char → Option ((List Char × List Char) × List Char)
    | '+' :: cs => signed ['+'] cs
    | '-' :: cs => signed ['-'] cs
    | cs => signed [] cs
  match cs with
  | 'e' :: cs => exponent cs
  | 'E' :: cs => exponent cs
  | cs => some (([], []), cs)

/-- The fraction at the front of a text, and the rest; without a point it has no digits. -/
def takeFraction (cs : List Char) : Option (List Char × List Char) :=
  match cs with
  | '.' :: cs =>
    let ds := cs.takeWhile Char.isDigit
    if ds = [] then none else some (ds, cs.dropWhile Char.isDigit)
  | cs => some ([], cs)

/-- Whether digits stand for a whole number: there are some, and `0` is only the first of one. -/
def isWhole : List Char → Bool
  | [] => false
  | ['0'] => true
  | '0' :: _ => false
  | _ => true

/-- The number at the front of a text, and the rest. -/
def takeNumeral (cs : List Char) : Option (Numeral × List Char) :=
  let (negative, cs) : Bool × List Char := match cs with
    | '-' :: cs => (true, cs)
    | cs => (false, cs)
  let whole := cs.takeWhile Char.isDigit
  if isWhole whole then
    match takeFraction (cs.dropWhile Char.isDigit) with
    | none => none
    | some (fraction, cs) =>
      match takeExponent cs with
      | none => none
      | some ((sign, exponent), cs) => some (⟨negative, whole, fraction, sign, exponent⟩, cs)
  else none

/-! ## Strings -/

/-- A piece of a string: a character, or a code unit of sixteen bits that an escape names. -/
inductive Piece
  | char (c : Char)
  | unit (n : Nat)
  deriving DecidableEq, Repr

/-- The value of a hexadecimal digit. -/
def hexValue? (c : Char) : Option Nat :=
  if c.isDigit then some (c.toNat - '0'.toNat)
  else if 'a' ≤ c ∧ c ≤ 'f' then some (c.toNat - 'a'.toNat + 10)
  else if 'A' ≤ c ∧ c ≤ 'F' then some (c.toNat - 'A'.toNat + 10)
  else none

/-- The value of four hexadecimal digits. -/
def hexUnit? (a b c d : Char) : Option Nat :=
  match hexValue? a, hexValue? b, hexValue? c, hexValue? d with
  | some a, some b, some c, some d => some (((a * 16 + b) * 16 + c) * 16 + d)
  | _, _, _, _ => none

/-- The character that stands for itself or for a control character behind a backslash. -/
def unescape? : Char → Option Char
  | '"' => some '"'
  | '\\' => some '\\'
  | '/' => some '/'
  | 'b' => some '\x08'
  | 'f' => some '\x0c'
  | 'n' => some '\n'
  | 'r' => some '\r'
  | 't' => some '\t'
  | _ => none

/-- The pieces of a string up to its closing quote, and the rest of the text. -/
def takePieces : List Char → Option (List Piece × List Char)
  | [] => none
  | '"' :: cs => some ([], cs)
  | '\\' :: 'u' :: a :: b :: c :: d :: cs =>
    match hexUnit? a b c d, takePieces cs with
    | some n, some (ps, rest) => some (.unit n :: ps, rest)
    | _, _ => none
  | '\\' :: c :: cs =>
    match unescape? c, takePieces cs with
    | some c, some (ps, rest) => some (.char c :: ps, rest)
    | _, _ => none
  | c :: cs =>
    if c = '\\' ∨ c.toNat < 0x20 then none
    else (takePieces cs).map fun p => (.char c :: p.1, p.2)

/-- Whether a code unit is the first half of a character. -/
def isHighHalf (n : Nat) : Bool := 0xD800 ≤ n && n ≤ 0xDBFF

/-- Whether a code unit is the second half of a character. -/
def isLowHalf (n : Nat) : Bool := 0xDC00 ≤ n && n ≤ 0xDFFF

/-- The characters of some pieces, nothing where a half of a character is alone. -/
def joinPieces : List Piece → Option (List Char)
  | [] => some []
  | .char c :: ps => (joinPieces ps).map (c :: ·)
  | .unit n :: ps =>
    if isLowHalf n then none
    else if isHighHalf n then
      match ps with
      | .unit m :: ps =>
        if isLowHalf m then
          (joinPieces ps).map (Char.ofNat (0x10000 + (n - 0xD800) * 0x400 + (m - 0xDC00)) :: ·)
        else none
      | _ => none
    else (joinPieces ps).map (Char.ofNat n :: ·)

/-- The string after an opening quote, and the rest of the text. -/
def takeString (cs : List Char) : Option (Text × List Char) :=
  (takePieces cs).map fun p => ((joinPieces p.1).map String.ofList, p.2)

/-! ## Values -/

namespace Value

mutual

/-- The value at the front of a text, and the rest. The value has fewer than `fuel` parts. -/
def take : (fuel : Nat) → List Char → Option (Value × List Char)
  | 0, _ => none
  | fuel + 1, cs =>
    match skipBlanks cs with
    | 'n' :: 'u' :: 'l' :: 'l' :: cs => some (.null, cs)
    | 't' :: 'r' :: 'u' :: 'e' :: cs => some (.bool true, cs)
    | 'f' :: 'a' :: 'l' :: 's' :: 'e' :: cs => some (.bool false, cs)
    | '"' :: cs => (takeString cs).map fun p => (.string p.1, p.2)
    | '[' :: cs =>
      match skipBlanks cs with
      | ']' :: cs => some (.array [], cs)
      | cs => (takeItems fuel cs).map fun p => (.array p.1, p.2)
    | '{' :: cs =>
      match skipBlanks cs with
      | '}' :: cs => some (.object [], cs)
      | cs => (takeMembers fuel cs).map fun p => (.object p.1, p.2)
    | cs => (takeNumeral cs).map fun p => (.number p.1, p.2)

/-- The items of an array up to its closing bracket, and the rest of the text. -/
def takeItems : (fuel : Nat) → List Char → Option (List Value × List Char)
  | 0, _ => none
  | fuel + 1, cs =>
    match take fuel cs with
    | none => none
    | some (v, cs) =>
      match skipBlanks cs with
      | ']' :: cs => some ([v], cs)
      | ',' :: cs => (takeItems fuel cs).map fun p => (v :: p.1, p.2)
      | _ => none

/-- The members of an object up to its closing brace, and the rest of the text. -/
def takeMembers : (fuel : Nat) → List Char → Option (List (Text × Value) × List Char)
  | 0, _ => none
  | fuel + 1, cs =>
    match skipBlanks cs with
    | '"' :: cs =>
      match takeString cs with
      | none => none
      | some (name, cs) =>
        match skipBlanks cs with
        | ':' :: cs =>
          match take fuel cs with
          | none => none
          | some (v, cs) =>
            match skipBlanks cs with
            | '}' :: cs => some ([(name, v)], cs)
            | ',' :: cs => (takeMembers fuel cs).map fun p => ((name, v) :: p.1, p.2)
            | _ => none
        | _ => none
    | _ => none

end

/-- The value of a whole text. A text has at most two parts for each of its characters. -/
def ofChars? (cs : List Char) : Option Value :=
  match take (2 * cs.length + 1) cs with
  | some (v, rest) => if skipBlanks rest = [] then some v else none
  | none => none

/-- The value of a whole text. -/
def parse? (s : String) : Option Value := ofChars? s.toList

end Value
end SheetTemplate.Json
