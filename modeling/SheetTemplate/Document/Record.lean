import SheetTemplate.Json.Number
import SheetTemplate.NameMap

/-!
# Values and records of documents

Documents are read part by part: a part that has another form than it should is refused, and so is
the document. A record is written as an object, and read from an object, in which other members are
ignored and no field may stand twice, or from an array of its fields in order. A map is an object in
which the last of several members with one name counts.
-/

namespace SheetTemplate.Document

open Json (Value)

/-- Read a string. -/
def readString : Value → Option String
  | .string s => s
  | _ => none

/-- Read a float. -/
def readFloat : Value → Option Float
  | .number n => n.toFloat?
  | _ => none

/-- Read a count. -/
def readCount : Value → Option Nat
  | .number n => n.toNat?
  | _ => none

/-- Read every part of a list. -/
def readAll {α β : Type} (read : α → Option β) : List α → Option (List β)
  | [] => some []
  | a :: as =>
    match read a, readAll read as with
    | some b, some bs => some (b :: bs)
    | _, _ => none

/-- Read an array. -/
def readList {α : Type} (read : Value → Option α) : Value → Option (List α)
  | .array items => readAll read items
  | _ => none

/-- Read a member with its name. -/
def readMember {α : Type} (read : Value → Option α) (m : Json.Text × Value) :
    Option (String × α) :=
  match m.1, read m.2 with
  | some name, some a => some (name, a)
  | _, _ => none

/-- Read a map. -/
def readMap {α : Type} (read : Value → Option α) : Value → Option (NameMap α)
  | .object members => (readAll (readMember read) members).map .ofList
  | _ => none

/-- Write a map in the order of its names. -/
def writeMap {α : Type} (write : α → Value) (m : NameMap α) : Value :=
  .ofMembers (m.entries.map fun e => (e.1, write e.2))

/-- The field of a name among the members of an object: refused if it stands twice. -/
def field? (members : List (Json.Text × Value)) (name : String) : Option (Option Value) :=
  match members.filter fun m => m.1 = some name with
  | [] => some none
  | [m] => some (some m.2)
  | _ => none

/-- The fields of a record, each missing or there. -/
def readFields (names : List String) : Value → Option (List (Option Value))
  | .object members =>
    if members.all fun m => m.1.isSome then readAll (field? members) names else none
  | .array items =>
    if items.length ≤ names.length then
      some (items.map some ++ List.replicate (names.length - items.length) none)
    else none
  | _ => none

/-- Read a field that must be there. -/
def required {α : Type} (read : Value → Option α) : Option Value → Option α
  | some v => read v
  | none => none

/-- Read a field that has a value of its own when it is missing. -/
def withDefault {α : Type} (default : α) (read : Value → Option α) : Option Value → Option α
  | some v => read v
  | none => some default

/-- Read a value that may be `null`. -/
def nullable {α : Type} (read : Value → Option α) : Value → Option (Option α)
  | .null => some none
  | v => (read v).map some

end SheetTemplate.Document
