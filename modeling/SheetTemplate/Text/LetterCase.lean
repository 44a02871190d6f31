/-!
# Letter case

Built-in functions are found under any letter case of their name. Their names are ASCII words, so
only those characters matter whose upper case is spelled in ASCII: the ASCII letters, and a few
characters beyond ASCII, some of which become two or three letters.
-/

namespace SheetTemplate.Text

/-- The upper case of a character where that is ASCII; every other character stands for itself. -/
def upperChar (c : Char) : List Char :=
  match c with
  | 'ß' => ['S', 'S']
  | 'ı' => ['I']
  | 'ſ' => ['S']
  | 'ﬀ' => ['F', 'F']
  | 'ﬁ' => ['F', 'I']
  | 'ﬂ' => ['F', 'L']
  | 'ﬃ' => ['F', 'F', 'I']
  | 'ﬄ' => ['F', 'F', 'L']
  | 'ﬅ' => ['S', 'T']
  | 'ﬆ' => ['S', 'T']
  | c => [c.toUpper]

/-- A text in upper case, as far as its characters have an upper case in ASCII. -/
def upper (s : String) : String := String.ofList (s.toList.flatMap upperChar)

end SheetTemplate.Text
