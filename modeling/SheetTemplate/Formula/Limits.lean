/-!
# Limits of a formula

Three limits keep the work on one formula small: the characters of its text, the items of each of
its expression levels, and the nesting of its calls.
-/

namespace SheetTemplate.Formula

/-- The limits under which formulas are read. -/
structure Limits where
  maxLength : Nat := 500
  maxTokens : Nat := 200
  maxDepth : Nat := 50
  deriving DecidableEq, Repr, Inhabited

end SheetTemplate.Formula
