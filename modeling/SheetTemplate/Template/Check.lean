import SheetTemplate.Formula.Parser
import SheetTemplate.Template
import SheetTemplate.Text.Blank

/-!
# What is wrong with a template

A formula may use the data columns, the system variables and the computed columns declared before
its own. `check` lists what breaks this rule, without evaluating anything: first the repeated ids,
then the problems of every computed column in turn.
-/

namespace SheetTemplate

/-- A problem of a template, found in the column named first. -/
inductive Issue
  | duplicateColumn (column : String)
  | missingFormula (column : String)
  | invalidFormula (column : String) (error : Formula.Error)
  | selfReference (column : String)
  | forwardReference (column reference : String)
  | unknownIdentifier (column identifier : String)
  deriving DecidableEq

namespace Issue

/-- The column in which a problem is found. -/
def column : Issue → String
  | duplicateColumn c | missingFormula c | invalidFormula c _ | selfReference c
  | forwardReference c _ | unknownIdentifier c _ => c

/-- The wording of a problem, without its column. -/
def detail : Issue → String
  | duplicateColumn _ => "duplicate column id"
  | missingFormula _ => "computed column has no formula"
  | invalidFormula _ error => error.message
  | selfReference _ => "formula references its own column"
  | forwardReference _ reference => "references '" ++ reference ++ "', which is computed later"
  | unknownIdentifier _ identifier => "unknown identifier '" ++ identifier ++ "'"

/-- The wording of a problem. -/
def text (i : Issue) : String := i.column ++ ": " ++ i.detail

end Issue

namespace Template

/-- The ids among some columns that are `seen` or repeated. -/
def duplicates (seen : List String) : List Column → List Issue
  | [] => []
  | c :: cs =>
    if seen.contains c.id then .duplicateColumn c.id :: duplicates seen cs
    else duplicates (c.id :: seen) cs

/-- The first declaration of an id, with its place in the list of columns. -/
def declaration? (columns : List Column) (id : String) : Option (Column × Nat) :=
  columns.zipIdx.find? fun p => p.1.id = id

/-- The problem of a name in the formula of the column `id` at a place of the template. -/
def nameIssue (columns : List Column) (known : List String) (id : String) (place : Nat)
    (name : String) : Option Issue :=
  if name = id then some (.selfReference id)
  else
    match declaration? columns name with
    | some (c, first) =>
      if place < first && c.isComputed then some (.forwardReference id name) else none
    | none => if known.contains name then none else some (.unknownIdentifier id name)

/-- The problems of a column at a place of the template. -/
def columnIssues (l : Formula.Limits) (columns : List Column) (known : List String)
    (c : Column) (place : Nat) : List Issue :=
  if c.isComputed then
    match c.formula with
    | none => [.missingFormula c.id]
    | some formula =>
      if Text.trim formula.toList = [] then [.missingFormula c.id]
      else
        match Formula.parse l formula with
        | .error e => [.invalidFormula c.id e]
        | .ok e => e.identifiers.filterMap (nameIssue columns known c.id place)
  else []

/-- The problems of some columns, where system variables of the given names are there. -/
def check (l : Formula.Limits) (columns : List Column) (known : List String) : List Issue :=
  duplicates [] columns ++
    columns.zipIdx.flatMap fun p => columnIssues l columns known p.1 p.2

/-- The problems of a template. -/
def issues (t : Template) : List Issue := check t.options.limits t.columns t.systemVariables.names

end Template
end SheetTemplate
