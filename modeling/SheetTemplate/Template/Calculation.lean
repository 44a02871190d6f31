import SheetTemplate.Formula.Eval
import SheetTemplate.Template

/-!
# The computed values of a row

The computed columns are taken in the order of their declaration, and each value is in the scope of
the columns after it. The scope of the first one holds the system variables and, hiding these, the
data columns. A formula that is missing, malformed or refers to its own column gives 0, and so does
one whose value is infinite or undefined.
-/

namespace SheetTemplate

/-- What is done for a computed column. -/
inductive Plan
  | evaluate (e : Formula.Expr)
  | selfReference
  | invalid

/-- What is done for a computed column under some limits. -/
def Column.plan (l : Formula.Limits) (c : Column) : Plan :=
  match c.formula with
  | none => .invalid
  | some formula =>
    match Formula.parse l formula with
    | .error _ => .invalid
    | .ok e => if e.references c.id then .selfReference else .evaluate e

/-- How many columns were computed, and how many of them were set to 0 for which reason. -/
@[ext] structure Stats where
  computed : Nat := 0
  selfReferences : Nat := 0
  invalid : Nat := 0
  nonFinite : Nat := 0
  deriving DecidableEq, Repr

/-- The stats of two calculations together. -/
def Stats.add (a b : Stats) : Stats :=
  ⟨a.computed + b.computed, a.selfReferences + b.selfReferences, a.invalid + b.invalid,
    a.nonFinite + b.nonFinite⟩

/-- The state of a calculation after some columns. -/
structure Calculation where
  scope : Formula.Scope
  /-- The value of every computed id, in the order of their first declaration. -/
  values : List (String × Float)
  stats : Stats

namespace Calculation

/-- Set the value of an id in its place, at the end if it has none. -/
def record (id : String) (x : Float) : List (String × Float) → List (String × Float)
  | [] => [(id, x)]
  | entry :: entries =>
    if entry.1 = id then (id, x) :: entries else entry :: record id x entries

/-- The value of a plan in a scope, before infinite and undefined values are taken out. -/
def rawValue (s : Formula.Scope) : Plan → Float
  | .evaluate e => e.eval s.read
  | .selfReference | .invalid => 0

/-- The stats of one column with a plan and its value. -/
def statsOf (p : Plan) (x : Float) : Stats where
  computed := 1
  selfReferences := match p with
    | .selfReference => 1
    | _ => 0
  invalid := match p with
    | .invalid => 1
    | _ => 0
  nonFinite := if x.isFinite then 0 else 1

/-- Compute one column. -/
def step (l : Formula.Limits) (s : Calculation) (c : Column) : Calculation :=
  let plan := c.plan l
  let raw := rawValue s.scope plan
  let x := if raw.isFinite then raw else 0
  ⟨s.scope.insert c.id x, record c.id x s.values, s.stats.add (statsOf plan raw)⟩

/-- The state before the first column: system variables, hidden by the data columns. -/
def start (t : Template) (row : Row) : Calculation :=
  ⟨t.systemVariables.insertAll ((t.columns.filter Column.isData).map fun c =>
      (c.id, t.options.fieldMap.resolve c.id row)), [], {}⟩

end Calculation

namespace Template

/-- The values of the computed columns on a row, with what was set to 0. -/
def calculate (t : Template) (row : Row) : Calculation :=
  (t.columns.filter Column.isComputed).foldl (Calculation.step t.options.limits)
    (Calculation.start t row)

/-- The values of the computed columns on a row. -/
def values (t : Template) (row : Row) : List (String × Float) := (t.calculate row).values

end Template
end SheetTemplate
