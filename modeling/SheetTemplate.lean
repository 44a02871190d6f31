import SheetTemplate.Main
import SheetTemplate.Proofs.NameMap
import SheetTemplate.Proofs.Json.Strings
import SheetTemplate.Proofs.Number.Packing
import SheetTemplate.Proofs.Number.Exactness
import SheetTemplate.Proofs.Number.Reading
import SheetTemplate.Proofs.Number.Signs
import SheetTemplate.Proofs.Cell.Address
import SheetTemplate.Proofs.Cell.Letters
import SheetTemplate.Proofs.Cell.Reading
import SheetTemplate.Proofs.Formula.Items
import SheetTemplate.Proofs.Formula.Grammar
import SheetTemplate.Proofs.Formula.Recognition
import SheetTemplate.Proofs.Formula.Spelling
import SheetTemplate.Proofs.Formula.Shape
import SheetTemplate.Proofs.Formula.RoundTrip
import SheetTemplate.Proofs.Formula.Renaming
import SheetTemplate.Proofs.Formula.Pieces
import SheetTemplate.Proofs.Formula.Lexing
import SheetTemplate.Proofs.Formula.Room
import SheetTemplate.Proofs.Formula.Respelling
import SheetTemplate.Proofs.Formula.Tokenization
import SheetTemplate.Proofs.Template.Meaning
import SheetTemplate.Proofs.Template.Check
import SheetTemplate.Proofs.Template.Issues
import SheetTemplate.Proofs.Template.Scope
import SheetTemplate.Proofs.Template.Placement
import SheetTemplate.Proofs.Template.Agreement
import SheetTemplate.Proofs.Template.Equations
import SheetTemplate.Proofs.Template.Prediction
import SheetTemplate.Proofs.Template.Shadowing
import SheetTemplate.Proofs.Template.References
import SheetTemplate.Proofs.Template.Dependence
import SheetTemplate.Proofs.Template.FillDown
import SheetTemplate.Proofs.Formula.Alike
import SheetTemplate.Proofs.Formula.Layout
import SheetTemplate.Proofs.Formula.Malformed
import SheetTemplate.Proofs.Formula.Inlining
import SheetTemplate.Proofs.Formula.Nesting
import SheetTemplate.Proofs.Formula.TreeTokens
import SheetTemplate.Proofs.Formula.Literals
import SheetTemplate.Proofs.Template.Names
import SheetTemplate.Proofs.Cell.Notation
import SheetTemplate.Proofs.Text.Runs
import SheetTemplate.Proofs.Row.Decimals
import SheetTemplate.Proofs.Row.Units
import SheetTemplate.Proofs.Json.Numerals
import SheetTemplate.Proofs.Document.Records
import SheetTemplate.Proofs.Json.Values
import SheetTemplate.Proofs.Document.Types
import SheetTemplate.Proofs.Number.Range
import SheetTemplate.Proofs.Json.Floats
import SheetTemplate.Proofs.Document.RoundTrip
import SheetTemplate.Proofs.Template.Repeats
import SheetTemplate.Proofs.Formula.Capping
import SheetTemplate.Proofs.Formula.Operands
import SheetTemplate.Proofs.Number.Ordering
import SheetTemplate.Proofs.Formula.OrderStatistics
import SheetTemplate.Proofs.Formula.Counting
