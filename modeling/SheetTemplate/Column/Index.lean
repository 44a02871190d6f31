import SheetTemplate.Cell.Reference
import SheetTemplate.Column
import SheetTemplate.NameMap

/-!
# Positions of columns

Columns are placed on a worksheet in the order of their declaration, the first one in column `A`. An
id that is declared twice stands for its first column; `ofDistinct` refuses such a template.
-/

namespace SheetTemplate.Column

/-- An id that two columns share. -/
structure DuplicateId where
  id : String
  deriving DecidableEq, Repr

/-- The wording of the error. -/
def DuplicateId.message (e : DuplicateId) : String := "Duplicate column id: " ++ e.id

/-- The worksheet position of every column id, counted from 1. -/
structure Index where
  positions : NameMap Nat

namespace Index

/-- Enter columns from position `n` on, keeping the ids that are there already. -/
def enter (m : NameMap Nat) (n : Nat) : List Column → NameMap Nat
  | [] => m
  | c :: cs => enter (if m.contains c.id then m else m.insert c.id n) (n + 1) cs

/-- Enter columns from position `n` on, up to the first id that is there already. -/
def enterDistinct (m : NameMap Nat) (n : Nat) : List Column → Except DuplicateId (NameMap Nat)
  | [] => .ok m
  | c :: cs =>
    if m.contains c.id then .error ⟨c.id⟩ else enterDistinct (m.insert c.id n) (n + 1) cs

/-- The positions of a template's columns. -/
def ofColumns (cs : List Column) : Index := ⟨enter .empty 1 cs⟩

/-- The positions of a template's columns, none of which share an id. -/
def ofDistinct (cs : List Column) : Except DuplicateId Index :=
  match enterDistinct .empty 1 cs with
  | .ok m => .ok ⟨m⟩
  | .error e => .error e

/-- The position of a column. -/
def position? (ix : Index) (id : String) : Option Nat := ix.positions.get? id

/-- Whether there is a column of this id. -/
def contains (ix : Index) (id : String) : Bool := ix.positions.contains id

/-- The letters of a column. -/
def letters? (ix : Index) (id : String) : Option String :=
  (ix.position? id).map fun n => String.ofList (Cell.lettersOfColumn n)

/-- The cell of a column on a worksheet row. -/
def cell? (ix : Index) (id : String) (row : Nat) : Option Cell.Reference :=
  (ix.position? id).map fun n => .relative n row

/-- The number of ids. -/
def size (ix : Index) : Nat := ix.positions.size

/-- Whether there is no column. -/
def isEmpty (ix : Index) : Bool := ix.positions.isEmpty

end Index
end SheetTemplate.Column
