import SheetTemplate.Column
import SheetTemplate.Formula.Limits
import SheetTemplate.Row

/-!
# Templates

A template is a list of columns together with the system variables that its formulas may use, the
limits on formulas, and the properties that its data columns read.
-/

namespace SheetTemplate

/-- How the formulas and the rows of a template are read. -/
@[ext] structure Options where
  limits : Formula.Limits := {}
  fieldMap : FieldMap := .tripSheet

instance : Inhabited Options := ⟨{}⟩

/-- A template of a worksheet. -/
structure Template where
  columns : List Column
  systemVariables : NameMap Float := .empty
  options : Options := {}

end SheetTemplate
