/-!
# Template columns

A template is a list of columns. A data column is read from a row; a computed column is the result
of its formula, which may use the columns declared before it.
-/

namespace SheetTemplate

/-- Where the values of a column come from. -/
inductive Column.Kind
  | data
  | computed
  deriving DecidableEq, Repr

/-- One column of a template. A data column may carry a formula, which is then not used. -/
structure Column where
  id : String
  kind : Column.Kind
  formula : Option String := none
  deriving DecidableEq, Repr

namespace Column

/-- Whether the column is the result of a formula. -/
def isComputed (c : Column) : Bool := c.kind = .computed

/-- Whether the column is read from the row. -/
def isData (c : Column) : Bool := c.kind = .data

end Column
end SheetTemplate
