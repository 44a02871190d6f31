import SheetTemplate.Json

/-!
# Writing JSON

A value is written in one line without blanks, or with one item a line and two blanks for every
level of nesting. In a string only quotes, backslashes and control characters are escaped.
-/

namespace SheetTemplate.Json

/-- A hexadecimal digit in lower case. -/
def hexDigit (n : Nat) : Char := Nat.digitChar n

/-- A character as it stands in a string. -/
def escapeChar (c : Char) : List Char :=
  if c = '"' then ['\\', '"']
  else if c = '\\' then ['\\', '\\']
  else if c = '\x08' then ['\\', 'b']
  else if c = '\t' then ['\\', 't']
  else if c = '\n' then ['\\', 'n']
  else if c = '\x0c' then ['\\', 'f']
  else if c = '\r' then ['\\', 'r']
  else if c.toNat < 0x20 then
    ['\\', 'u', '0', '0', hexDigit (c.toNat / 16), hexDigit (c.toNat % 16)]
  else [c]

/-- A text between its quotes. -/
def quote (s : Text) : List Char :=
  '"' :: ((s.getD "").toList.flatMap escapeChar ++ ['"'])

/-- The word of a truth value. -/
def boolWord (b : Bool) : List Char := if b then ['t', 'r', 'u', 'e'] else ['f', 'a', 'l', 's', 'e']

namespace Value

mutual

/-- A value in one line without blanks. -/
def compact : Value → List Char
  | null => ['n', 'u', 'l', 'l']
  | bool b => boolWord b
  | number n => n.chars
  | string s => quote s
  | array items => '[' :: (compactItems items ++ [']'])
  | object members => '{' :: (compactMembers members ++ ['}'])

/-- Items with commas between them. -/
def compactItems : List Value → List Char
  | [] => []
  | [v] => v.compact
  | v :: vs => v.compact ++ ',' :: compactItems vs

/-- Members with commas between them. -/
def compactMembers : List (Text × Value) → List Char
  | [] => []
  | [m] => compactMember m
  | m :: ms => compactMember m ++ ',' :: compactMembers ms

/-- A member with its name. -/
def compactMember : Text × Value → List Char
  | (name, v) => quote name ++ ':' :: v.compact

end

/-- The start of a line at some level of nesting. -/
def newLine (level : Nat) : List Char := '\n' :: List.replicate (2 * level) ' '

mutual

/-- A value with one item a line, at some level of nesting. -/
def pretty (level : Nat) : Value → List Char
  | null => ['n', 'u', 'l', 'l']
  | bool b => boolWord b
  | number n => n.chars
  | string s => quote s
  | array [] => ['[', ']']
  | array items => '[' :: (prettyItems (level + 1) items ++ newLine level ++ [']'])
  | object [] => ['{', '}']
  | object members => '{' :: (prettyMembers (level + 1) members ++ newLine level ++ ['}'])

/-- Items, each on a line of its own. -/
def prettyItems (level : Nat) : List Value → List Char
  | [] => []
  | [v] => newLine level ++ v.pretty level
  | v :: vs => newLine level ++ v.pretty level ++ ',' :: prettyItems level vs

/-- Members, each on a line of its own. -/
def prettyMembers (level : Nat) : List (Text × Value) → List Char
  | [] => []
  | [m] => newLine level ++ prettyMember level m
  | m :: ms => newLine level ++ prettyMember level m ++ ',' :: prettyMembers level ms

/-- A member with its name. -/
def prettyMember (level : Nat) : Text × Value → List Char
  | (name, v) => quote name ++ ':' :: ' ' :: v.pretty level

end

end Value
end SheetTemplate.Json
