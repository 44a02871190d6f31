import SheetTemplate.Formula.Body
import SheetTemplate.Template

/-!
# The worksheet formulas of a template

Every computed column has a formula on every row of the worksheet. The plan of a row lists them with
their cells, and the references of the system variables that they use.
-/

namespace SheetTemplate

/-- The formula of a column in its cell. -/
structure CellFormula where
  column : String
  cell : Cell.Reference
  /-- The formula without its `=`. -/
  body : String
  deriving DecidableEq

/-- The text that stands in the cell. -/
def CellFormula.text (f : CellFormula) : String := "=" ++ f.body

/-- The formulas of a worksheet row. -/
structure RowPlan where
  formulas : List CellFormula
  /-- The references of the system variables that the formulas use. -/
  refs : Formula.VariableRefs

namespace RowPlan

/-- The references that a formula uses; one that is no expression uses none. -/
def usedRefs (l : Formula.Limits) (columns : Column.Index) (refs : Formula.VariableRefs)
    (formula : String) : List (String × String) :=
  match Formula.parse l formula with
  | .error _ => []
  | .ok e =>
    e.identifiers.filterMap fun name =>
      if columns.contains name then none
      else (refs.get? name).map fun reference => (name, reference)

/-- The formula of a column at a place of the template; a missing one is exported as `0`. -/
def cellFormula (l : Formula.Limits) (p : Formula.Placement) (c : Column) (place : Nat) :
    CellFormula :=
  ⟨c.id, .relative (place + 1) p.row,
    match c.formula with
    | none => "0"
    | some formula => Formula.body l p.reference formula⟩

/-- The plan of a worksheet row. -/
def ofColumns (l : Formula.Limits) (columns : List Column) (refs : Formula.VariableRefs)
    (row : Nat) : RowPlan :=
  let index := Column.Index.ofColumns columns
  let computed := columns.zipIdx.filter fun p => p.1.isComputed
  ⟨computed.map fun p => cellFormula l ⟨index, row, refs⟩ p.1 p.2,
    .ofList (computed.flatMap fun p => (p.1.formula.map (usedRefs l index refs)).getD [])⟩

/-- The plans of consecutive rows, up to the last countable one. -/
def ofRows (l : Formula.Limits) (columns : List Column) (refs : Formula.VariableRefs)
    (first count : Nat) : List RowPlan :=
  (List.range' first (min (first + count) Cell.maxCount - first)).map (ofColumns l columns refs)

end RowPlan
end SheetTemplate
