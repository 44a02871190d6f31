import SheetTemplate.Proofs.Document.Records
import SheetTemplate.Proofs.Json.Floats
import SheetTemplate.Proofs.Json.Values
import SheetTemplate.Proofs.Cell.Reading

/-!
# The types of the data model read back

Each type of the data model is read back from the value that it is written as: columns, options and
limits as they are, cell references where they lie on the worksheet, and whatever holds a float
where the text of the float is read as the float (`ReadsBack`). What is read keeps to the ranges of
the types again.
-/

namespace SheetTemplate.Document

open Json (Value Text Numeral ReadsBack)

/-! ### Floats -/

theorem ofFloat_of_isFinite {x : Float} (h : x.isFinite = true) :
    Value.ofFloat x = .number (.ofFloat x) :=
  if_pos h

theorem readFloat_ofFloat_iff {x : Float} (h : x.isFinite = true) :
    readFloat (.ofFloat x) = some x ↔ ReadsBack x := by
  rw [ofFloat_of_isFinite h]
  rfl

/-- The float of a row value. -/
def floatOf? : Row.Value → Option Float
  | .number x => some x
  | _ => none

theorem readRowValue_writeRowValue_iff {v : Row.Value}
    (h : ∀ x ∈ floatOf? v, x.isFinite = true) :
    readRowValue (writeRowValue v) = some v ↔ ∀ x ∈ floatOf? v, ReadsBack x := by
  cases v with
  | number x =>
    rw [writeRowValue, ofFloat_of_isFinite (h x rfl), readRowValue, floatOf?]
    simp [ReadsBack]
  | _ => simp [writeRowValue, readRowValue, floatOf?, Value.ofString]

theorem isFinite_of_readFloat {v : Value} {x : Float} (h : readFloat v = some x) :
    x.isFinite = true := by
  cases v with
  | number n => exact Numeral.isFinite_of_toFloat? h
  | _ => cases h

theorem isFinite_of_readRowValue {v : Value} {value : Row.Value} (h : readRowValue v = some value)
    {x : Float} (hx : x ∈ floatOf? value) : x.isFinite = true := by
  cases v with
  | number n =>
    obtain ⟨y, hy, rfl⟩ := Option.map_eq_some_iff.1 h
    obtain rfl := Option.some.inj hx
    exact Numeral.isFinite_of_toFloat? hy
  | string s =>
    obtain ⟨y, -, rfl⟩ := Option.map_eq_some_iff.1 h
    cases hx
  | array items => cases h
  | object members => cases h
  | _ =>
    obtain rfl := Option.some.inj h
    cases hx

/-! ### Columns -/

/-- **A kind of column** is read by its name or as an object of it, and a computed column has a
second name. -/
theorem readKind_eq_some_iff {v : Value} {kind : Column.Kind} : readKind v = some kind ↔
    ∃ name, (v = .string (some name) ∨ v = .object [(some name, .null)]) ∧
      (name = kindName kind ∨ name = "berekend" ∧ kind = .computed) := by
  have hname : ∀ name, kindOfName name = some kind ↔
      name = kindName kind ∨ name = "berekend" ∧ kind = .computed := by
    intro name
    unfold kindOfName
    cases kind <;> split <;> simp_all [kindName]
  constructor
  · intro h
    unfold readKind at h
    split at h
    · exact ⟨_, .inl rfl, (hname _).1 h⟩
    · exact ⟨_, .inr rfl, (hname _).1 h⟩
    · cases h
  · rintro ⟨name, rfl | rfl, h⟩
    · exact (hname name).2 h
    · exact (hname name).2 h

theorem readKind_kindName (kind : Column.Kind) :
    readKind (.ofString (kindName kind)) = some kind :=
  readKind_eq_some_iff.2 ⟨_, .inl rfl, .inl rfl⟩

/-- The fields of a column. -/
def columnFields : List String := ["id", "kind", "formula"]

theorem nodup_columnFields : columnFields.Nodup := by decide

theorem readColumn_writeColumn (c : Column) : readColumn (writeColumn c) = some c := by
  obtain ⟨id, kind, formula⟩ := c
  have hkind := readKind_kindName kind
  cases formula with
  | none =>
    have hfields : readFields ["id", "kind", "formula"] (writeColumn ⟨id, kind, none⟩) =
        some [some (.ofString id), some (.ofString (kindName kind)), none] :=
      readFields_fieldMembers nodup_columnFields [.ofString id, .ofString (kindName kind)]
        (by simp [columnFields])
    simp only [readColumn, hfields, required, hkind, withDefault]
    rfl
  | some formula =>
    have hfields : readFields ["id", "kind", "formula"] (writeColumn ⟨id, kind, some formula⟩) =
        some [some (.ofString id), some (.ofString (kindName kind)), some (.ofString formula)] :=
      readFields_fieldMembers nodup_columnFields
        [.ofString id, .ofString (kindName kind), .ofString formula] (by simp [columnFields])
    simp only [readColumn, hfields, required, hkind, withDefault]
    rfl

/-! ### Limits and options -/

/-- Limits that a document can hold. -/
def InRange (l : Formula.Limits) : Prop :=
  l.maxLength ≤ Json.maxCount ∧ l.maxTokens ≤ Json.maxCount ∧ l.maxDepth ≤ Json.maxCount

/-- The fields of limits. -/
def limitFields : List String := ["max_formula_length", "max_tokens", "max_function_depth"]

theorem nodup_limitFields : limitFields.Nodup := by decide

/-- The fields of options. -/
def optionFields : List String := ["limits", "field_map"]

theorem nodup_optionFields : optionFields.Nodup := by decide

theorem inRange_default : InRange {} := ⟨by decide, by decide, by decide⟩

theorem readCount_ofNat {n : Nat} (h : n ≤ Json.maxCount) :
    readCount (.number (.ofNat n)) = some n :=
  Numeral.toNat?_ofNat h

theorem readLimits_writeLimits {l : Formula.Limits} (h : InRange l) :
    readLimits (writeLimits l) = some l := by
  have hfields : readFields ["max_formula_length", "max_tokens", "max_function_depth"]
      (writeLimits l) = some [some (.number (.ofNat l.maxLength)),
        some (.number (.ofNat l.maxTokens)), some (.number (.ofNat l.maxDepth))] :=
    readFields_fieldMembers nodup_limitFields
      [.number (.ofNat l.maxLength), .number (.ofNat l.maxTokens), .number (.ofNat l.maxDepth)]
      (by simp [limitFields])
  simp only [readLimits, hfields, withDefault, readCount_ofNat h.1, readCount_ofNat h.2.1,
    readCount_ofNat h.2.2]

theorem count_le {default n : Nat} (hdefault : default ≤ Json.maxCount) {field : Option Value}
    (h : withDefault default readCount field = some n) : n ≤ Json.maxCount := by
  unfold withDefault readCount Numeral.toNat? at h
  grind

/-- Limits that are read are limits that a document can hold. -/
theorem inRange_of_readLimits {v : Value} {l : Formula.Limits} (h : readLimits v = some l) :
    InRange l := by
  simp only [readLimits] at h
  split at h
  · split at h
    · rename_i hlength htokens hdepth
      obtain rfl := Option.some.inj h
      exact ⟨count_le inRange_default.1 hlength, count_le inRange_default.2.1 htokens,
        count_le inRange_default.2.2 hdepth⟩
    · cases h
  · cases h

theorem readFieldMap_writeFieldMap (m : FieldMap) : readFieldMap (writeFieldMap m) = some m := by
  rw [readFieldMap, writeFieldMap, readMap_writeMap_iff.2 fun _ _ => rfl]
  rfl

theorem readOptions_writeOptions {o : Options} (h : InRange o.limits) :
    readOptions (writeOptions o) = some o := by
  have hfields : readFields ["limits", "field_map"] (writeOptions o) =
      some [some (writeLimits o.limits), some (writeFieldMap o.fieldMap)] :=
    readFields_fieldMembers nodup_optionFields [writeLimits o.limits, writeFieldMap o.fieldMap]
      (by simp [optionFields])
  simp only [readOptions, hfields, withDefault, readLimits_writeLimits h,
    readFieldMap_writeFieldMap]

theorem inRange_of_readOptions {v : Value} {o : Options} (h : readOptions v = some o) :
    InRange o.limits := by
  simp only [readOptions] at h
  split at h
  · rename_i limits fieldMap hfields
    split at h
    · rename_i hlimits hfieldMap
      obtain rfl := Option.some.inj h
      cases limits with
      | none =>
        obtain rfl := Option.some.inj hlimits
        exact inRange_default
      | some w => exact inRange_of_readLimits hlimits
    · cases h
  · cases h

/-! ### Records as arrays, and their defaults -/

/-- The fields of a column that may be missing, with what they stand for then. -/
def columnDefaults : List (String × Value) := [("formula", .null)]

/-- The fields of limits that may be missing, with what they stand for then. -/
def limitDefaults : List (String × Value) :=
  let defaults : Formula.Limits := {}
  [("max_formula_length", .number (.ofNat defaults.maxLength)),
    ("max_tokens", .number (.ofNat defaults.maxTokens)),
    ("max_function_depth", .number (.ofNat defaults.maxDepth))]

/-- The fields of options that may be missing, with what they stand for then. -/
def optionDefaults : List (String × Value) :=
  [("limits", writeLimits {}), ("field_map", writeFieldMap .tripSheet)]

theorem readsRecord_columns : ReadsRecord readColumn columnFields columnDefaults := by
  refine readsRecord_of_factorsThrough nodup_columnFields (fun v w h => ?_) rfl ?_
  · rw [columnFields] at h
    rw [readColumn, h, readColumn]
  · intro field hfield find v w hnone hv hw
    obtain rfl := List.mem_singleton.1 hfield
    rw [columnFields] at hv hw
    simp only [readColumn, hv, hw, List.map_cons, List.map_nil, Function.update_apply,
      String.reduceEq, reduceIte, hnone]
    rfl

theorem readsRecord_limits : ReadsRecord readLimits limitFields limitDefaults := by
  refine readsRecord_of_factorsThrough nodup_limitFields (fun v w h => ?_) rfl ?_
  · rw [limitFields] at h
    rw [readLimits, h, readLimits]
  · intro field hfield find v w hnone hv hw
    rw [limitFields] at hv hw
    have hlength := readCount_ofNat inRange_default.1
    have htokens := readCount_ofNat inRange_default.2.1
    have hdepth := readCount_ofNat inRange_default.2.2
    simp only [limitDefaults, List.mem_cons, List.not_mem_nil, or_false] at hfield
    rcases hfield with rfl | rfl | rfl <;>
      simp only [readLimits, hv, hw, List.map_cons, List.map_nil, Function.update_apply,
        String.reduceEq, reduceIte, hnone, withDefault, hlength, htokens, hdepth]

theorem readsRecord_options : ReadsRecord readOptions optionFields optionDefaults := by
  refine readsRecord_of_factorsThrough nodup_optionFields (fun v w h => ?_) rfl ?_
  · rw [optionFields] at h
    rw [readOptions, h, readOptions]
  · intro field hfield find v w hnone hv hw
    rw [optionFields] at hv hw
    have hlimits : readLimits (writeLimits {}) = some {} := readLimits_writeLimits inRange_default
    have hfieldMap := readFieldMap_writeFieldMap .tripSheet
    simp only [optionDefaults, List.mem_cons, List.not_mem_nil, or_false] at hfield
    rcases hfield with rfl | rfl <;>
      simp only [readOptions, hv, hw, List.map_cons, List.map_nil, Function.update_apply,
        String.reduceEq, reduceIte, hnone, withDefault, hlimits, hfieldMap]

/-! ### Cell references -/

theorem readCell_writeCell {r : Cell.Reference} (h : r.InSheet) :
    readCell (writeCell r) = some r := by
  have hread : readString (writeCell r) = some r.text := rfl
  simp only [readCell, hread, Cell.Reference.parse_text h, Except.toOption]

/-! ### What is written is well formed -/

theorem wellFormed_writeMap {α : Type} {write : α → Value} (h : ∀ a, (write a).WellFormed)
    (m : NameMap α) : (writeMap write m).WellFormed := by
  refine Value.wellFormed_ofMembers fun member hmember => ?_
  obtain ⟨e, -, rfl⟩ := List.mem_map.1 hmember
  exact h e.2

theorem wellFormed_array {α : Type} {write : α → Value} (h : ∀ a, (write a).WellFormed)
    (as : List α) : (Value.array (as.map write)).WellFormed := by
  refine Value.wellFormedItems_iff.2 fun v hv => ?_
  obtain ⟨a, -, rfl⟩ := List.mem_map.1 hv
  exact h a

theorem wellFormed_writeRowValue (v : Row.Value) : (writeRowValue v).WellFormed := by
  cases v with
  | empty => trivial
  | flag b => trivial
  | number x => exact Value.wellFormed_ofFloat x
  | text s => rfl

theorem wellFormed_writeColumn (c : Column) : (writeColumn c).WellFormed := by
  refine Value.wellFormed_ofMembers ?_
  cases c.formula with
  | none => simp [Value.ofString, Value.WellFormed]
  | some formula => simp [Value.ofString, Value.WellFormed]

theorem wellFormed_writeLimits (l : Formula.Limits) : (writeLimits l).WellFormed := by
  refine Value.wellFormed_ofMembers ?_
  simp [Value.WellFormed, Numeral.wellFormed_ofNat]

theorem wellFormed_writeOptions (o : Options) : (writeOptions o).WellFormed := by
  refine Value.wellFormed_ofMembers ?_
  have hfieldMap : (writeFieldMap o.fieldMap).WellFormed :=
    wellFormed_writeMap Value.wellFormed_ofString _
  simp [wellFormed_writeLimits, hfieldMap]

end SheetTemplate.Document
