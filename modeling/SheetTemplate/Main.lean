import SheetTemplate.CommandLine.Run

/-!
# The program

Reads the documents that a command asks for, and prints what the command leaves behind. The exit
code is 2 where the arguments are refused and 1 where the command ends with an error.
-/

namespace SheetTemplate.Main

open CommandLine

/-- The text of a document, from standard input where its path is `-`. -/
def readDocument (path : String) : IO (Option String) := do
  try
    if path = "-" then
      return some (← (← IO.getStdin).readToEnd)
    else
      return some (← IO.FS.readFile path)
  catch _ => return none

/-- The documents of a command, the template first. -/
def readDocuments : Command → IO Documents
  | .preview template rows _ => return ⟨← readDocument template, ← readDocument rows⟩
  | .exportSheet template .. => return ⟨← readDocument template, none⟩
  | .check template => return ⟨← readDocument template, none⟩

/-- Print an error and give its exit code. -/
def complain (code : UInt32) (message : String) : IO UInt32 := do
  IO.eprintln message
  return code

/-- Print what a command leaves behind, and give the exit code. -/
def conclude (o : Outcome) : IO UInt32 := do
  IO.print o.printed
  match o.file with
  | none => pure ()
  | some (path, text) =>
    try
      IO.FS.writeFile path text
    catch _ => return (← complain 1 ("Error: Failed to write '" ++ path ++ "'"))
  match o.error with
  | none => return 0
  | some message => complain 1 ("Error: " ++ message)

end SheetTemplate.Main

/-- Run the command that the arguments ask for. -/
def main (args : List String) : IO UInt32 := do
  match SheetTemplate.CommandLine.parse? args with
  | none =>
    SheetTemplate.Main.complain 2 "Usage: preview TEMPLATE ROWS | export TEMPLATE | check TEMPLATE"
  | some command =>
    SheetTemplate.Main.conclude (command.run (← SheetTemplate.Main.readDocuments command))
