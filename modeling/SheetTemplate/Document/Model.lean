import SheetTemplate.Document.Record
import SheetTemplate.Template
import SheetTemplate.Template.Calculation
import SheetTemplate.Template.Export

/-!
# The documents of the data model

How columns, rows, variables, options, limits, references and whole templates are read and written.
A computed column is written as `computed` and also read as `berekend`; a missing formula is left
out; limits and options that are missing take their defaults.
-/

namespace SheetTemplate.Document

open Json (Value)

/-! ## Columns -/

/-- Read the name of a kind of column. -/
def kindOfName : String → Option Column.Kind
  | "data" => some .data
  | "computed" => some .computed
  | "berekend" => some .computed
  | _ => none

/-- The name of a kind of column. -/
def kindName : Column.Kind → String
  | .data => "data"
  | .computed => "computed"

/-- Read a kind of column: its name, or an object whose one member has that name and no value. -/
def readKind : Value → Option Column.Kind
  | .string (some name) => kindOfName name
  | .object [(some name, .null)] => kindOfName name
  | _ => none

/-- Read a column. -/
def readColumn (v : Value) : Option Column :=
  match readFields ["id", "kind", "formula"] v with
  | some [id, kind, formula] =>
    match required readString id, required readKind kind,
      withDefault none (nullable readString) formula with
    | some id, some kind, some formula => some ⟨id, kind, formula⟩
    | _, _, _ => none
  | _ => none

/-- Write a column. -/
def writeColumn (c : Column) : Value :=
  .ofMembers (("id", .ofString c.id) :: ("kind", .ofString (kindName c.kind)) ::
    (c.formula.map fun f => ("formula", Value.ofString f)).toList)

/-- Read a list of columns. -/
def readColumns : Value → Option (List Column) := readList readColumn

/-- Write a list of columns. -/
def writeColumns (cs : List Column) : Value := .array (cs.map writeColumn)

/-! ## Rows and variables -/

/-- Read a value of a row. -/
def readRowValue : Value → Option Row.Value
  | .null => some .empty
  | .bool b => some (.flag b)
  | .number n => n.toFloat?.map .number
  | .string s => s.map .text
  | _ => none

/-- Write a value of a row. -/
def writeRowValue : Row.Value → Value
  | .empty => .null
  | .flag b => .bool b
  | .number x => .ofFloat x
  | .text s => .ofString s

/-- Read a row. -/
def readRow (v : Value) : Option Row := (readMap readRowValue v).map Row.mk

/-- Write a row. -/
def writeRow (r : Row) : Value := writeMap writeRowValue r.values

/-- Read system variables. -/
def readVariables : Value → Option (NameMap Float) := readMap readFloat

/-- Write system variables. -/
def writeVariables : NameMap Float → Value := writeMap .ofFloat

/-- Read the references of system variables. -/
def readRefs : Value → Option Formula.VariableRefs := readMap readString

/-- Write the references of system variables. -/
def writeRefs : Formula.VariableRefs → Value := writeMap .ofString

/-! ## Options -/

/-- Read limits. -/
def readLimits (v : Value) : Option Formula.Limits :=
  let defaults : Formula.Limits := {}
  match readFields ["max_formula_length", "max_tokens", "max_function_depth"] v with
  | some [length, tokens, depth] =>
    match withDefault defaults.maxLength readCount length,
      withDefault defaults.maxTokens readCount tokens,
      withDefault defaults.maxDepth readCount depth with
    | some length, some tokens, some depth => some ⟨length, tokens, depth⟩
    | _, _, _ => none
  | _ => none

/-- Write limits. -/
def writeLimits (l : Formula.Limits) : Value :=
  .ofMembers [
    ("max_formula_length", .number (.ofNat l.maxLength)),
    ("max_tokens", .number (.ofNat l.maxTokens)),
    ("max_function_depth", .number (.ofNat l.maxDepth))]

/-- Read a field map. -/
def readFieldMap (v : Value) : Option FieldMap := (readMap readString v).map FieldMap.mk

/-- Write a field map. -/
def writeFieldMap (m : FieldMap) : Value := writeMap .ofString m.fields

/-- Read options. -/
def readOptions (v : Value) : Option Options :=
  match readFields ["limits", "field_map"] v with
  | some [limits, fieldMap] =>
    match withDefault {} readLimits limits, withDefault .tripSheet readFieldMap fieldMap with
    | some limits, some fieldMap => some ⟨limits, fieldMap⟩
    | _, _ => none
  | _ => none

/-- Write options. -/
def writeOptions (o : Options) : Value :=
  .ofMembers [("limits", writeLimits o.limits), ("field_map", writeFieldMap o.fieldMap)]

/-! ## Cell references -/

/-- Read a cell reference, written in A1 notation. -/
def readCell (v : Value) : Option Cell.Reference :=
  match readString v with
  | some s => (Cell.Reference.parse s).toOption
  | none => none

/-- Write a cell reference in A1 notation. -/
def writeCell (r : Cell.Reference) : Value := .ofString r.text

/-- Read a list of cell references. -/
def readCells : Value → Option (List Cell.Reference) := readList readCell

/-- Write a list of cell references. -/
def writeCells (rs : List Cell.Reference) : Value := .array (rs.map writeCell)

/-! ## Templates and results -/

/-- Read a template. -/
def readTemplate (v : Value) : Option Template :=
  match readFields ["columns", "system_variables", "options"] v with
  | some [columns, vars, options] =>
    match required readColumns columns, withDefault .empty readVariables vars,
      withDefault {} readOptions options with
    | some columns, some vars, some options => some ⟨columns, vars, options⟩
    | _, _, _ => none
  | _ => none

/-- Read a list of rows. -/
def readRows : Value → Option (List Row) := readList readRow

/-- Write the computed values of a row in the order of their columns. -/
def writeValues (vs : List (String × Float)) : Value :=
  .ofMembers (vs.map fun p => (p.1, .ofFloat p.2))

/-- Write a formula with its cell. -/
def writeCellFormula (f : CellFormula) : Value :=
  .ofMembers [
    ("column", .ofString f.column),
    ("cell", writeCell f.cell),
    ("formula", .ofString f.body)]

/-- Write the plan of a worksheet row. -/
def writeRowPlan (p : RowPlan) : Value :=
  .ofMembers [
    ("formulas", .array (p.formulas.map writeCellFormula)),
    ("system_variable_refs", writeRefs p.refs)]

end SheetTemplate.Document
