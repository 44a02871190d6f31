import SheetTemplate.NameMap
import SheetTemplate.Row.Value

/-!
# Rows

A row holds the values of one line of source data by property. A field map tells which property a
data column reads; a column without an entry reads the property of its own name.
-/

namespace SheetTemplate

/-- The values of one line of source data. -/
@[ext] structure Row where
  values : NameMap Row.Value

namespace Row

/-- The row without values. -/
def empty : Row := ⟨.empty⟩

instance : Inhabited Row := ⟨empty⟩

/-- The value of a property. -/
def get? (r : Row) (property : String) : Option Value := r.values.get? property

/-- Set a property. -/
def insert (r : Row) (property : String) (v : Value) : Row := ⟨r.values.insert property v⟩

/-- The number of a property; a missing one is 0. -/
def number (r : Row) (property : String) : Float :=
  match r.get? property with
  | some v => v.toNumber
  | none => 0

end Row

/-- The properties that data columns read. -/
@[ext] structure FieldMap where
  fields : NameMap String

namespace FieldMap

/-- The map under which every column reads the property of its own name. -/
def identity : FieldMap := ⟨.empty⟩

/-- Set the property that a column reads. -/
def insert (m : FieldMap) (id property : String) : FieldMap := ⟨m.fields.insert id property⟩

/-- The property that a column reads. -/
def property (m : FieldMap) (id : String) : String := (m.fields.get? id).getD id

/-- The number that a data column reads in a row. -/
def resolve (m : FieldMap) (id : String) (r : Row) : Float := r.number (m.property id)

/-- The columns of a trip sheet, over the properties of a time entry. -/
def tripSheet : FieldMap :=
  identity
    |>.insert "ritnummer" "ritnummer"
    |>.insert "volgnummer" "volgnummer"
    |>.insert "chauffeur" "chauffeur"
    |>.insert "datum" "date"
    |>.insert "begin_tijd" "begin_time"
    |>.insert "eind_tijd" "end_time"
    |>.insert "pauze" "break"
    |>.insert "correctie" "correction"
    |>.insert "begin_km" "begin_km"
    |>.insert "eind_km" "end_km"
    |>.insert "overnachting" "overnight_allowance"
    |>.insert "overige_kosten" "other_costs"

instance : Inhabited FieldMap := ⟨tripSheet⟩

end FieldMap
end SheetTemplate
