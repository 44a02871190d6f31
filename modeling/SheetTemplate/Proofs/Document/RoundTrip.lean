import SheetTemplate.Proofs.Document.Types

/-!
# Documents read back

The seven kinds of documents of the data model, each with what it holds, how it is read and how it
is written. What keeps to the ranges of its types is read back from its document exactly where the
texts of its floats are read as these floats, and every document that is accepted holds something
that keeps to the ranges (`documents_read_back`).
-/

namespace SheetTemplate.Document

open Json (Value Text ReadsBack)

/-- The kinds of documents of the data model. -/
inductive Kind
  | columns
  | row
  | vars
  | options
  | limits
  | refs
  | cells
  deriving DecidableEq, Repr

namespace Kind

/-- What a document holds. -/
def Content : Kind → Type
  | columns => List Column
  | row => Row
  | vars => NameMap Float
  | options => Options
  | limits => Formula.Limits
  | refs => Formula.VariableRefs
  | cells => List Cell.Reference

/-- Read what a document holds. -/
def read : (k : Kind) → Value → Option k.Content
  | columns => readColumns
  | row => readRow
  | vars => readVariables
  | options => readOptions
  | limits => readLimits
  | refs => readRefs
  | cells => readCells

/-- Write what a document holds. -/
def write : (k : Kind) → k.Content → Value
  | columns => writeColumns
  | row => writeRow
  | vars => writeVariables
  | options => writeOptions
  | limits => writeLimits
  | refs => writeRefs
  | cells => writeCells

/-- The text of a document. -/
def text (k : Kind) (a : k.Content) : String := String.ofList (k.write a).compact

/-- What the document of a text holds, where the text is accepted. -/
def ofText? (k : Kind) (s : String) : Option k.Content := (Value.parse? s).bind k.read

/-- The floats that a document holds. -/
def floats : (k : Kind) → k.Content → List Float
  | row, r => r.values.entries.filterMap fun e => floatOf? e.2
  | vars, m => m.entries.map Prod.snd
  | _, _ => []

/-- The counts are counts of 64 bits, and the cells lie on the worksheet. -/
def Fits : (k : Kind) → k.Content → Prop
  | options, o => InRange o.limits
  | limits, l => InRange l
  | cells, (rs : List Cell.Reference) => ∀ r ∈ rs, r.InSheet
  | _, _ => True

/-- What a document can hold: finite floats, and whatever else fits its type. -/
def Proper (k : Kind) (a : k.Content) : Prop :=
  (∀ x ∈ k.floats a, x.isFinite = true) ∧ k.Fits a

theorem wellFormed_write (k : Kind) (a : k.Content) : (k.write a).WellFormed := by
  cases k with
  | columns => exact wellFormed_array wellFormed_writeColumn a
  | row => exact wellFormed_writeMap wellFormed_writeRowValue _
  | vars => exact wellFormed_writeMap Value.wellFormed_ofFloat a
  | options => exact wellFormed_writeOptions a
  | limits => exact wellFormed_writeLimits a
  | refs => exact wellFormed_writeMap Value.wellFormed_ofString a
  | cells => exact wellFormed_array (fun r => Value.wellFormed_ofString r.text) a

/-- A document is read as the value that it was written from. -/
theorem ofText?_text (k : Kind) (a : k.Content) : k.ofText? (k.text a) = k.read (k.write a) := by
  rw [ofText?, text, Value.parse?_compact (k.wellFormed_write a)]
  rfl

/-! ### Values read back -/

theorem readRow_writeRow_iff {r : Row} (h : Kind.row.Proper r) :
    readRow (writeRow r) = some r ↔ ∀ x ∈ Kind.row.floats r, ReadsBack x := by
  have hfinite : ∀ e ∈ r.values.entries, ∀ x ∈ floatOf? e.2, x.isFinite = true :=
    fun e he x hx => h.1 x (List.mem_filterMap.2 ⟨e, he, hx⟩)
  have hvalues : readRow (writeRow r) = some r ↔
      readMap readRowValue (writeMap writeRowValue r.values) = some r.values := by
    rw [readRow, writeRow, Option.map_eq_some_iff]
    exact ⟨fun ⟨m, hm, hr⟩ => hr ▸ hm, fun hm => ⟨_, hm, rfl⟩⟩
  rw [hvalues, readMap_writeMap_iff]
  constructor
  · intro hread x hx
    obtain ⟨e, he, hx⟩ := List.mem_filterMap.1 hx
    exact (readRowValue_writeRowValue_iff (hfinite e he)).1 (hread e he) x hx
  · intro hread e he
    exact (readRowValue_writeRowValue_iff (hfinite e he)).2 fun x hx =>
      hread x (List.mem_filterMap.2 ⟨e, he, hx⟩)

theorem readVariables_writeVariables_iff {m : NameMap Float} (h : Kind.vars.Proper m) :
    readVariables (writeVariables m) = some m ↔ ∀ x ∈ Kind.vars.floats m, ReadsBack x := by
  have hfinite : ∀ e ∈ m.entries, e.2.isFinite = true :=
    fun e he => h.1 e.2 (List.mem_map_of_mem he)
  rw [readVariables, writeVariables, readMap_writeMap_iff]
  show _ ↔ ∀ x ∈ m.entries.map Prod.snd, ReadsBack x
  rw [List.forall_mem_map]
  exact forall₂_congr fun e he => readFloat_ofFloat_iff (hfinite e he)

/-- **What keeps to its ranges** is read back from its value exactly where its floats are. -/
theorem read_write_iff {k : Kind} {a : k.Content} (h : k.Proper a) :
    k.read (k.write a) = some a ↔ ∀ x ∈ k.floats a, ReadsBack x := by
  cases k with
  | columns =>
    exact iff_of_true (readAll_map_iff.2 fun c _ => readColumn_writeColumn c) nofun
  | row => exact readRow_writeRow_iff h
  | vars => exact readVariables_writeVariables_iff h
  | options => exact iff_of_true (readOptions_writeOptions h.2) nofun
  | limits => exact iff_of_true (readLimits_writeLimits h.2) nofun
  | refs => exact iff_of_true (readMap_writeMap_iff.2 fun _ _ => rfl) nofun
  | cells => exact iff_of_true (readAll_map_iff.2 fun r hr => readCell_writeCell (h.2 r hr)) nofun

/-! ### What is accepted -/

/-- **What is read keeps to the ranges of its types.** -/
theorem proper_of_read {k : Kind} {v : Value} {a : k.Content} (h : k.read v = some a) :
    k.Proper a := by
  cases k with
  | columns => exact ⟨nofun, trivial⟩
  | row =>
    obtain ⟨m, hm, rfl⟩ := Option.map_eq_some_iff.1 h
    refine ⟨fun x hx => ?_, trivial⟩
    obtain ⟨e, he, hx⟩ := List.mem_filterMap.1 hx
    obtain ⟨w, hw⟩ := exists_of_mem_readMap hm he
    exact isFinite_of_readRowValue hw hx
  | vars =>
    refine ⟨fun x hx => ?_, trivial⟩
    obtain ⟨e, he, rfl⟩ := List.mem_map.1 hx
    obtain ⟨w, hw⟩ := exists_of_mem_readMap h he
    exact isFinite_of_readFloat hw
  | options => exact ⟨nofun, inRange_of_readOptions h⟩
  | limits => exact ⟨nofun, inRange_of_readLimits h⟩
  | refs => exact ⟨nofun, trivial⟩
  | cells =>
    refine ⟨nofun, fun r hr => ?_⟩
    cases v with
    | array items =>
      obtain ⟨w, -, hw⟩ := exists_of_readAll h hr
      exact Cell.Reference.inSheet_of_readCell hw
    | _ => cases h

end Kind

/-! ### Documents -/

/-- **Documents survive a write and a read.** What keeps to the ranges of its types is read back
from its document, whatever its strings are, exactly where the texts of its floats are read as these
floats; and what an accepted document holds keeps to these ranges. On the way a document loses only
what does not matter: a computed column has two names, of several members of a map with one name the
last one counts, a record may be an array of its fields, and a field that is missing stands for its
default. -/
theorem documents_read_back :
    (∀ (k : Kind) (a : k.Content), k.Proper a →
      (k.ofText? (k.text a) = some a ↔ ∀ x ∈ k.floats a, ReadsBack x)) ∧
    (∀ (k : Kind) (d : String) (a : k.Content), k.ofText? d = some a →
      k.Proper a ∧ ((∀ x ∈ k.floats a, ReadsBack x) → k.ofText? (k.text a) = some a)) ∧
    (∀ v kind, readKind v = some kind ↔
      ∃ name, (v = .string (some name) ∨ v = .object [(some name, .null)]) ∧
        (name = kindName kind ∨ name = "berekend" ∧ kind = .computed)) ∧
    ReadsLast (fun v => (readRow v).map Row.values) readRowValue ∧
    ReadsLast readVariables readFloat ∧
    ReadsLast readRefs readString ∧
    ReadsLast (fun v => (readFieldMap v).map FieldMap.fields) readString ∧
    ReadsRecord readColumn columnFields columnDefaults ∧
    ReadsRecord readLimits limitFields limitDefaults ∧
    ReadsRecord readOptions optionFields optionDefaults := by
  have hback : ∀ (k : Kind) (a : k.Content), k.Proper a →
      (k.ofText? (k.text a) = some a ↔ ∀ x ∈ k.floats a, ReadsBack x) := by
    intro k a h
    rw [Kind.ofText?_text, Kind.read_write_iff h]
  refine ⟨hback, fun k d a h => ?_, fun v kind => readKind_eq_some_iff, ?_,
    readsLast_readMap readFloat, readsLast_readMap readString, ?_, readsRecord_columns,
    readsRecord_limits, readsRecord_options⟩
  · obtain ⟨v, -, hread⟩ := Option.bind_eq_some_iff.1 h
    have hproper := Kind.proper_of_read hread
    exact ⟨hproper, (hback k a hproper).2⟩
  · intro members m h
    obtain ⟨r, hr, rfl⟩ := Option.map_eq_some_iff.1 h
    obtain ⟨m, hm, rfl⟩ := Option.map_eq_some_iff.1 hr
    exact readsLast_readMap readRowValue members m hm
  · intro members m h
    obtain ⟨fieldMap, hfieldMap, rfl⟩ := Option.map_eq_some_iff.1 h
    obtain ⟨m, hm, rfl⟩ := Option.map_eq_some_iff.1 hfieldMap
    exact readsLast_readMap readString members m hm

/-- A row with quotes, a control character, a number without sign and a zero with one, and a column
that is an array of its fields under the second name of its kind. -/
theorem documents_read_back_row :
    let row : Row := ⟨.ofList [("naam", .text "a\"\\\n\x01é"), ("km", .number 12.5),
      ("saldo", .number (-0))]⟩
    let column : Column := ⟨"uren", .computed, some "=eind-begin"⟩
    let d := "[[\"uren\",\"berekend\",\"=eind-begin\"]]"
    Kind.row.Proper row ∧ (∀ x ∈ Kind.row.floats row, ReadsBack x) ∧
      Kind.row.ofText? (Kind.row.text row) = some row ∧
      Kind.columns.ofText? d = some [column] ∧
      Kind.columns.ofText? (Kind.columns.text [column]) = some [column] := by
  intro row column d
  have hproper : Kind.row.Proper row := ⟨by decide +kernel, trivial⟩
  have hfloats : ∀ x ∈ Kind.row.floats row, ReadsBack x := by decide +kernel
  have hd : Kind.columns.ofText? d = some [column] := by
    show (Value.parse? d).bind readColumns = some [column]
    decide +kernel
  exact ⟨hproper, hfloats, (documents_read_back.1 .row row hproper).2 hfloats, hd,
    (documents_read_back.2.1 .columns d [column] hd).2 nofun⟩

end SheetTemplate.Document
