import SheetTemplate.CommandLine.Arguments
import SheetTemplate.Document.Model
import SheetTemplate.Json.Reader
import SheetTemplate.Json.Writer
import SheetTemplate.Template.Calculation
import SheetTemplate.Template.Check
import SheetTemplate.Template.Export

/-!
# What the commands print

A command is a function of the documents that it reads. Its outcome is what it prints or writes to a
file, and the error with which it ends.
-/

namespace SheetTemplate.CommandLine

/-- What a command leaves behind. -/
structure Outcome where
  /-- The text printed to standard output. -/
  printed : String := ""
  /-- The file that is written, with its text. -/
  file : Option (String × String) := none
  error : Option String := none

/-- The texts of the documents that a command reads; one that cannot be read is missing. -/
structure Documents where
  template : Option String
  rows : Option String

/-- Print a text and end its last line. -/
def print (text : String) : Outcome := { printed := text ++ "\n" }

/-- End with an error. -/
def failure (message : String) : Outcome := { error := some message }

/-- The error of a document that cannot be read. -/
def unreadable (path : String) : String :=
  if path = "-" then "Failed to read stdin" else "Failed to read '" ++ path ++ "'"

/-- Read a document of some kind and go on with it. -/
def withDocument {α : Type} (kind path : String) (text : Option String)
    (read : Json.Value → Option α) (go : α → Outcome) : Outcome :=
  match text with
  | none => failure (unreadable path)
  | some s =>
    match (Json.Value.parse? s).bind read with
    | none => failure ("Failed to parse " ++ kind ++ " '" ++ path ++ "'")
    | some a => go a

/-- A document with one item a line. -/
def prettyText (v : Json.Value) : String := String.ofList (v.pretty 0)

/-- The lines of an export: every formula with its cell, then the references that are used. The
references are those of the first row, since all rows use the same ones. -/
def exportText (plans : List RowPlan) : String :=
  let formulas := plans.flatMap fun p =>
    p.formulas.map fun f => f.cell.text ++ "\t" ++ f.text ++ "\n"
  let refs := plans.head?.toList.flatMap fun p =>
    p.refs.entries.map fun e => e.2 ++ "\t" ++ e.1 ++ "\n"
  String.join (formulas ++ refs)

/-- Calculate the rows of a template. -/
def previewText (t : Template) (rows : List Row) : String :=
  prettyText (.array (rows.map fun row => Document.writeValues (t.values row)))

/-- Plan the worksheet rows of a template, its system variables below each other in a column. -/
def planRows (t : Template) (row count column variableRow : Nat) : List RowPlan :=
  RowPlan.ofRows t.options.limits t.columns
    (.inColumn t.systemVariables.names column variableRow) row count

/-- Report the problems of a template. -/
def report (path : String) (issues : List Issue) : Outcome :=
  match issues with
  | [] => print (path ++ ": no problems found")
  | _ =>
    { printed := String.join (issues.map fun i => i.text ++ "\n")
      error := some (Nat.repr issues.length ++ " problem(s) found in '" ++ path ++ "'") }

/-- What a command leaves behind, given its documents. -/
def Command.run (docs : Documents) : Command → Outcome
  | .preview template rows output =>
    withDocument "template" template docs.template Document.readTemplate fun t =>
      withDocument "rows" rows docs.rows Document.readRows fun rs =>
        match output with
        | none => print (previewText t rs)
        | some path => { file := some (path, previewText t rs) }
  | .exportSheet template row count variableColumn variableRow json =>
    withDocument "template" template docs.template Document.readTemplate fun t =>
      match Cell.columnOfLetters variableColumn.toList with
      | .error _ => failure ("Invalid system variable column '" ++ variableColumn ++ "'")
      | .ok column =>
        let plans := planRows t row count column variableRow
        print (if json then prettyText (.array (plans.map Document.writeRowPlan))
          else exportText plans)
  | .check template =>
    withDocument "template" template docs.template Document.readTemplate fun t =>
      report template t.issues

end SheetTemplate.CommandLine
