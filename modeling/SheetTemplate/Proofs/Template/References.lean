import SheetTemplate.Proofs.Formula.Pieces
import SheetTemplate.Proofs.NameMap
import SheetTemplate.Proofs.Template.Issues
import SheetTemplate.Proofs.Template.Placement

/-!
# The references that a plan records

The plan of a worksheet row records references of system variables next to its formulas. It takes
them from the trees of the formulas: the names that a tree refers to and that no column has
(`get?_refs_iff`). What a formula is written with are the names among its pieces (`Column.Writes`).

The two differ in two places, and only there (`recorded_iff_named`): a formula that is no expression
is written token by token and records nothing, and a call in an argument that is no expression
records its name, which is written as that of a function. So `RecordsWritten` fails in general.
-/

namespace SheetTemplate

/-! ### What is written -/

namespace Column

/-- The export of a column writes a reference for a name. -/
def Writes (l : Formula.Limits) (c : Column) (name : String) : Prop :=
  ∃ formula, c.formula = some formula ∧ .name name ∈ Formula.pieces l formula.toList

/-- Whether the formula of a column is no expression, and is exported token by token. -/
def isVerbatim (l : Formula.Limits) (c : Column) : Bool :=
  match c.formula.map (Formula.parse l) with
  | some (.error (.malformed _)) | some (.error (.tooDeep _)) => true
  | _ => false

variable {l : Formula.Limits} {name : String}

/-- A formula that is a tree is written with the names among the pieces of the tree. -/
theorem writes_iff {c : Column} {e : Formula.Expr} (h : c.tree? l = some e) :
    c.Writes l name ↔ .name name ∈ e.pieces := by
  obtain ⟨formula, hformula, hparse⟩ := tree?_eq_some_iff.1 h
  have hpieces : Formula.pieces l formula.toList = e.pieces := by
    rw [Formula.parse] at hparse
    rw [Formula.pieces, hparse]
  simp [Writes, hformula, hpieces]

/-- Only a tree is written with references, and a formula that is exported token by token. -/
theorem exists_tree_of_writes {c : Column} (h : c.Writes l name) (hverb : c.isVerbatim l = false) :
    ∃ e, c.tree? l = some e := by
  obtain ⟨formula, hformula, hmem⟩ := h
  rw [isVerbatim, hformula, Option.map_some, Formula.parse] at hverb
  rw [Formula.pieces] at hmem
  cases hparse : Formula.parseChars l formula.toList with
  | ok e => exact ⟨e, tree?_eq_some_iff.2 ⟨formula, hformula, hparse⟩⟩
  | error e => cases e <;> simp [hparse] at hverb hmem

end Column

/-! ### What is recorded -/

namespace RowPlan

/-- The formulas of a row are written with the reference of a system variable. -/
def WritesRef (l : Formula.Limits) (columns : List Column) (refs : Formula.VariableRefs)
    (name reference : String) : Prop :=
  refs.get? name = some reference ∧ (∀ c ∈ columns, c.id ≠ name) ∧
    ∃ c ∈ columns, c.isComputed = true ∧ c.Writes l name

/-- The references that a plan records are those that its formulas are written with. -/
def RecordsWritten (l : Formula.Limits) (columns : List Column) (refs : Formula.VariableRefs)
    (row : Nat) : Prop :=
  ∀ name reference, (ofColumns l columns refs row).refs.get? name = some reference ↔
    WritesRef l columns refs name reference

variable {l : Formula.Limits} {columns : List Column} {refs : Formula.VariableRefs} {row : Nat}
  {name reference : String}

theorem mem_usedRefs_iff {formula : String} :
    (name, reference) ∈ usedRefs l (.ofColumns columns) refs formula ↔
      refs.get? name = some reference ∧ (∀ c ∈ columns, c.id ≠ name) ∧
        ∃ e, Formula.parse l formula = .ok e ∧ name ∈ e.names := by
  rw [← Column.Index.contains_ofColumns, usedRefs]
  cases Formula.parse l formula with
  | error _ => simp
  | ok e =>
    simp only [List.mem_filterMap, Formula.Expr.identifiers, List.mem_eraseDups, Except.ok.injEq,
      exists_eq_left']
    constructor
    · rintro ⟨name', hname, h⟩
      split_ifs at h with hcolumn
      obtain ⟨reference', hget, heq⟩ := Option.map_eq_some_iff.1 h
      obtain ⟨rfl, rfl⟩ := Prod.mk.inj heq
      exact ⟨hget, by simpa using hcolumn, hname⟩
    · rintro ⟨hget, hcolumn, hname⟩
      exact ⟨name, hname, by simp [hcolumn, hget]⟩

/-- What a formula uses, as far as it is a tree. -/
theorem mem_usedRefs_of_column_iff {c : Column} :
    (name, reference) ∈ (c.formula.map (usedRefs l (.ofColumns columns) refs)).getD [] ↔
      refs.get? name = some reference ∧ (∀ c' ∈ columns, c'.id ≠ name) ∧
        ∃ e, c.tree? l = some e ∧ name ∈ e.names := by
  simp only [Column.tree?_eq_some_iff]
  cases c.formula with
  | none => simp
  | some formula => simp [mem_usedRefs_iff]

/-- A plan records the references of the names that the trees of its formulas refer to. -/
theorem get?_refs_iff : (ofColumns l columns refs row).refs.get? name = some reference ↔
    refs.get? name = some reference ∧ (∀ c ∈ columns, c.id ≠ name) ∧
      ∃ c ∈ columns, c.isComputed = true ∧ ∃ e, c.tree? l = some e ∧ name ∈ e.names := by
  have hsame : ∀ entry ∈ (columns.zipIdx.filter fun p => p.1.isComputed).flatMap fun p =>
      (p.1.formula.map (usedRefs l (.ofColumns columns) refs)).getD [],
      refs.get? entry.1 = some entry.2 := by
    intro entry hentry
    obtain ⟨p, -, hused⟩ := List.mem_flatMap.1 hentry
    exact (mem_usedRefs_of_column_iff.1 hused).1
  refine (NameMap.get?_ofList_eq_some_iff hsame).trans (List.mem_flatMap.trans ?_)
  simp only [mem_usedRefs_of_column_iff, List.mem_filter, Prod.exists]
  constructor
  · rintro ⟨c, place, ⟨hmem, hc⟩, hget, hcolumn, htree⟩
    exact ⟨hget, hcolumn, c, List.mem_of_getElem? (List.mem_zipIdx_iff_getElem?.1 hmem), hc, htree⟩
  · rintro ⟨hget, hcolumn, c, hmem, hc, htree⟩
    obtain ⟨place, hplace⟩ := List.mem_iff_getElem?.1 hmem
    exact ⟨c, place, ⟨List.mem_zipIdx_iff_getElem?.2 hplace, hc⟩, hget, hcolumn, htree⟩

/-- Without a formula that is exported token by token, every reference that is written is
recorded. -/
theorem recorded_of_written
    (hverb : ∀ c ∈ columns, c.isComputed = true → c.isVerbatim l = false)
    (h : WritesRef l columns refs name reference) :
    (ofColumns l columns refs row).refs.get? name = some reference := by
  obtain ⟨hget, hcolumn, c, hmem, hc, hwrites⟩ := h
  obtain ⟨e, htree⟩ := Column.exists_tree_of_writes hwrites (hverb c hmem hc)
  refine get?_refs_iff.2 ⟨hget, hcolumn, c, hmem, hc, e, htree, ?_⟩
  exact e.mem_names_iff.2 (.inl ((Column.writes_iff htree).1 hwrites))

/-- Without a call in an argument that is no expression, every reference that is recorded is
written. -/
theorem written_of_recorded
    (hstray : ∀ c ∈ columns, c.isComputed = true → ∀ e, c.tree? l = some e → e.strayCalls = [])
    (h : (ofColumns l columns refs row).refs.get? name = some reference) :
    WritesRef l columns refs name reference := by
  obtain ⟨hget, hcolumn, c, hmem, hc, e, htree, hname⟩ := get?_refs_iff.1 h
  refine ⟨hget, hcolumn, c, hmem, hc, (Column.writes_iff htree).2 ?_⟩
  refine (e.mem_names_iff.1 hname).resolve_right ?_
  rw [hstray c hmem hc e htree]
  exact List.not_mem_nil

/-! ### The plan as a whole -/

/-- **The references that a plan records are those that the trees of its formulas are written with,
and those of the names of calls in arguments that are no expressions.** A formula is exported as its
pieces with references for the names; so what is recorded is what is written as long as no formula
is exported token by token and no argument that is no expression holds a call. -/
theorem recorded_iff_named (l : Formula.Limits) (columns : List Column)
    (refs : Formula.VariableRefs) (row : Nat) :
    (∀ name reference, (ofColumns l columns refs row).refs.get? name = some reference ↔
      refs.get? name = some reference ∧ (∀ c ∈ columns, c.id ≠ name) ∧
        ∃ c ∈ columns, c.isComputed = true ∧ ∃ e, c.tree? l = some e ∧
          (.name name ∈ e.pieces ∨ name ∈ e.strayCalls)) ∧
    (∀ place c formula, columns[place]? = some c → c.isComputed = true →
      c.formula = some formula → ∃ f ∈ (ofColumns l columns refs row).formulas,
        f.column = c.id ∧ f.cell = .relative (place + 1) row ∧
        f.body.toList = (Formula.pieces l formula.toList).flatMap
          (Formula.Piece.chars (Formula.Placement.reference ⟨.ofColumns columns, row, refs⟩))) ∧
    (∀ name reference, WritesRef l columns refs name reference →
      Formula.Placement.reference ⟨.ofColumns columns, row, refs⟩ name = reference) ∧
    ((∀ c ∈ columns, c.isComputed = true → c.isVerbatim l = false) →
      (∀ c ∈ columns, c.isComputed = true → ∀ e, c.tree? l = some e → e.strayCalls = []) →
      RecordsWritten l columns refs row) := by
  refine ⟨fun name reference => ?_, ?_, ?_, fun hverb hstray name reference => ?_⟩
  · simp only [get?_refs_iff, Formula.Expr.mem_names_iff]
  · intro place c formula hplace hc hformula
    obtain ⟨f, hf, hid, hcell, hbody⟩ := exists_formula hplace hc hformula
    refine ⟨f, hf, hid, hcell, ?_⟩
    rw [hbody, Formula.body, String.toList_ofList, Formula.bodyChars_eq_flatMap]
  · rintro name reference ⟨hget, hcolumn, -⟩
    rw [Formula.Placement.reference_ofColumns, Template.declaration?_eq_none_iff.2 hcolumn]
    simp only [hget, Option.getD_some]
  · exact ⟨written_of_recorded hstray, recorded_of_written hverb⟩

/-- A call in an argument that is no expression is recorded without being written. -/
example :
    let plan := ofColumns {} [⟨"bedrag", .computed, some "=SUM(tarief()+)"⟩]
      (.ofList [("tarief", "$O$5")]) 7
    plan.formulas.map CellFormula.body = ["SUM(tarief()+)"] ∧
      plan.refs.get? "tarief" = some "$O$5" := by
  decide +kernel

/-- A formula that is no expression is written with a reference that is not recorded. -/
theorem not_recordsWritten_of_malformed :
    ¬ RecordsWritten {} [⟨"bedrag", .computed, some "=tarief+"⟩] (.ofList [("tarief", "$O$5")])
      7 := by
  intro h
  have hwritten : WritesRef {} [⟨"bedrag", .computed, some "=tarief+"⟩]
      (.ofList [("tarief", "$O$5")]) "tarief" "$O$5" := by
    refine ⟨by decide, by decide, _, List.mem_cons_self, rfl, _, rfl, ?_⟩
    decide +kernel
  have hrecorded := (h "tarief" "$O$5").2 hwritten
  revert hrecorded
  decide +kernel

end RowPlan
end SheetTemplate
