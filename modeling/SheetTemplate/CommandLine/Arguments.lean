import SheetTemplate.Cell.Letters
import SheetTemplate.Number.Decimal

/-!
# The arguments of the program

The program has three commands. `preview` calculates rows, `export` prints worksheet formulas and
`check` reports the problems of a template. An option stands for itself or takes a value, which
follows as the next argument or behind `=`; no option may be given twice. After `--` all arguments
are paths. Anything else is refused.
-/

namespace SheetTemplate.CommandLine

/-- What the program is asked to do. -/
inductive Command
  | preview (template rows : String) (output : Option String)
  | exportSheet (template : String) (row count : Nat) (variableColumn : String) (variableRow : Nat)
      (json : Bool)
  | check (template : String)
  deriving DecidableEq, Repr

/-- The options of the commands. -/
inductive Flag
  | verbose
  | output
  | row
  | count
  | variableColumn
  | variableRow
  | json
  deriving DecidableEq, Repr

/-- Whether an option takes a value. -/
def Flag.takesValue : Flag → Bool
  | verbose | json => false
  | _ => true

/-- The option of a long name. -/
def Flag.ofName? : String → Option Flag
  | "verbose" => some .verbose
  | "output" => some .output
  | "row" => some .row
  | "count" => some .count
  | "vars-column" => some .variableColumn
  | "vars-row" => some .variableRow
  | "json" => some .json
  | _ => none

/-- The option of a letter. -/
def Flag.ofLetter? : Char → Option Flag
  | 'v' => some .verbose
  | 'o' => some .output
  | 'r' => some .row
  | 'n' => some .count
  | _ => none

/-- The arguments of a command: its paths, and its options with their values. -/
structure Given where
  paths : List String := []
  flags : List (Flag × String) := []

/-- Add an option, which may be there already only if it is `verbose`. -/
def Given.add (g : Given) (f : Flag) (value : String) : Option Given :=
  if f ≠ .verbose ∧ g.flags.any (fun p => p.1 = f) then none
  else some { g with flags := g.flags ++ [(f, value)] }

/-- The value of an option. -/
def Given.value? (g : Given) (f : Flag) : Option String :=
  (g.flags.find? fun p => p.1 = f).map Prod.snd

/-- A word of the command line: a path, an option, or an option whose value is the next argument. -/
inductive Word
  | path (s : String)
  | options (fs : List (Flag × String))
  | awaiting (fs : List (Flag × String)) (f : Flag)

/-- The options of a long name with or without a value behind `=`. -/
def longWord (cs : List Char) : Option Word :=
  let name := cs.takeWhile (· ≠ '=')
  match Flag.ofName? (String.ofList name), cs.dropWhile (· ≠ '=') with
  | none, _ => none
  | some f, [] => some (if f.takesValue then .awaiting [] f else .options [(f, "")])
  | some f, _ :: value =>
    if f.takesValue then some (.options [(f, String.ofList value)]) else none

/-- The options of some letters; an option that takes a value takes the letters after it, or those
behind `=`. -/
def letterWord (before : List (Flag × String)) : List Char → Option Word
  | [] => some (.options before)
  | c :: cs =>
    match Flag.ofLetter? c with
    | none => none
    | some f =>
      if f.takesValue then
        match cs with
        | [] => some (.awaiting before f)
        | '=' :: value => some (.options (before ++ [(f, String.ofList value)]))
        | value => some (.options (before ++ [(f, String.ofList value)]))
      else letterWord (before ++ [(f, "")]) cs

/-- The word of an argument other than `--`. -/
def wordOf (arg : String) : Option Word :=
  match arg.toList with
  | '-' :: '-' :: cs => longWord cs
  | ['-'] => some (.path arg)
  | '-' :: cs => letterWord [] cs
  | _ => some (.path arg)

/-- Whether an argument may be the value of the option before it. -/
def isValue (arg : String) : Bool :=
  match arg.toList with
  | ['-'] => true
  | '-' :: _ => false
  | _ => true

/-- Add some options. -/
def Given.addAll (g : Given) (fs : List (Flag × String)) : Option Given :=
  fs.foldlM (fun g p => g.add p.1 p.2) g

/-- Take up the arguments of a command one after the other. -/
def collect (g : Given) : List String → Option Given
  | [] => some g
  | "--" :: args => some { g with paths := g.paths ++ args }
  | arg :: args =>
    match wordOf arg with
    | none => none
    | some (.path s) => collect { g with paths := g.paths ++ [s] } args
    | some (.options fs) => (g.addAll fs).bind fun g => collect g args
    | some (.awaiting fs f) =>
      match args with
      | [] => none
      | value :: args =>
        if isValue value then
          ((g.addAll fs).bind fun g => g.add f value).bind fun g => collect g args
        else none

/-- The arguments from the name of the command on; only `verbose` may stand in front of it. -/
def afterVerbose : List String → List String
  | [] => []
  | arg :: args =>
    match wordOf arg with
    | some (.options fs) =>
      if fs.all fun p => p.1 = .verbose then afterVerbose args else arg :: args
    | _ => arg :: args

/-- A count of at most 32 bits: digits with an optional sign, a minus sign only in front of zero. -/
def countOf? (s : String) : Option Nat :=
  let (negative, ds) : Bool × List Char := match s.toList with
    | '+' :: ds => (false, ds)
    | '-' :: ds => (true, ds)
    | ds => (false, ds)
  if ds = [] || !ds.all Char.isDigit then none
  else
    let n := Number.natOfDigits ds
    if Cell.maxCount < n || (negative && n != 0) then none else some n

/-- The count that an option gives, or its default. -/
def Given.count? (g : Given) (f : Flag) (default : Nat) : Option Nat :=
  match g.value? f with
  | none => some default
  | some s => countOf? s

/-- Whether all options are among those of a command. -/
def Given.only (g : Given) (fs : List Flag) : Bool :=
  g.flags.all fun p => (.verbose :: fs).contains p.1

/-- Whether paths are given as they should be: none of them is empty. -/
def Given.pathsOk (g : Given) : Bool :=
  g.paths.all (· ≠ "") && (g.flags.all fun p => p.1 ≠ .output || p.2 ≠ "")

/-- The command of its arguments. -/
def commandOf? (name : String) (g : Given) : Option Command :=
  if !g.pathsOk then none
  else
    match name, g.paths with
    | "preview", [template, rows] =>
      if g.only [.output] then some (.preview template rows (g.value? .output)) else none
    | "export", [template] =>
      if g.only [.row, .count, .variableColumn, .variableRow, .json] then
        match g.count? .row 2, g.count? .count 1, g.count? .variableRow 5 with
        | some row, some count, some variableRow =>
          some (.exportSheet template row count ((g.value? .variableColumn).getD "O") variableRow
            (g.value? .json).isSome)
        | _, _, _ => none
      else none
    | "check", [template] => if g.only [] then some (.check template) else none
    | _, _ => none

/-- The command that the arguments of the program ask for, if they are as they should be. -/
def parse? (args : List String) : Option Command :=
  match afterVerbose args with
  | [] => none
  | name :: args => (collect {} args).bind (commandOf? name)

end SheetTemplate.CommandLine
