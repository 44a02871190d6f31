import SheetTemplate.Proofs.Formula.Renaming
import SheetTemplate.Proofs.Template.Placement
import SheetTemplate.Proofs.Template.Scope

/-!
# Preview and export agree

A template without problems is calculated on a row and exported to a row of a worksheet. Where the
worksheet holds the values of its columns and system variables (`Fills`), every exported formula,
read off its text without marks, has the calculated value of its column (`export_agrees`).

A name of a formula is read in two ways: in the scope of the calculation, and as the cell that its
reference addresses. `exists_cell` says that both give the same number; what remains is that the
exported text is read as the same tree up to its names.
-/

namespace SheetTemplate

/-- The numbers in the cells of a worksheet, by column and row. -/
abbrev Sheet := Nat × Nat → Float

/-- The number of a formula on a worksheet, where its names are cells; 0 in place of a number that
is infinite or undefined. -/
def Sheet.value (s : Sheet) (e : Formula.Expr) : Float :=
  let x := e.eval fun name => s (Cell.addressed name)
  if x.isFinite then x else 0

namespace Template

/-- A worksheet holds the values of the columns on row `r`, and the values of the system variables
below each other in a column, from row `first` on. -/
structure Fills (t : Template) (row : Row) (column first r : Nat) (s : Sheet) : Prop where
  data : ∀ {place c}, t.columns[place]? = some c → c.isData = true →
    s (place + 1, r) = t.options.fieldMap.resolve c.id row
  computed : ∀ {place c x}, t.columns[place]? = some c → c.isComputed = true →
    (c.id, x) ∈ t.values row → s (place + 1, r) = x
  system : ∀ {i name x}, t.systemVariables.entries[i]? = some (name, x) → s (column, first + i) = x

/-- Where the formulas of a template are placed. -/
def placement (t : Template) (column first r : Nat) : Formula.Placement :=
  ⟨.ofColumns t.columns, r, .inColumn t.systemVariables.names column first⟩

variable {t : Template} {row : Row} {column first r : Nat} {s : Sheet}

/-! ### References -/

theorem reference_eq (name : String) : (t.placement column first r).reference name =
    match declaration? t.columns name with
    | some (_, place) => (Cell.Reference.relative (place + 1) r).text
    | none => ((Formula.VariableRefs.inColumn t.systemVariables.names column first).get? name).getD
        name :=
  Formula.Placement.reference_ofColumns name

/-- The variables in a column stand below each other. -/
theorem get?_inColumn {names : List String} (hnames : names.Nodup) {i : Nat} {name : String}
    (h : names[i]? = some name) : (Formula.VariableRefs.inColumn names column first).get? name =
      some (Cell.Reference.absolute column (first + i)).text := by
  refine NameMap.get?_insertAll_of_nodup ?_ ?_
  · rw [List.map_map]
    show ((names.zipIdx first).map Prod.fst).Nodup
    rwa [List.zipIdx_map_fst]
  · exact List.mem_map.2 ⟨(name, first + i), List.mk_add_mem_zipIdx_iff_getElem?.2 h, rfl⟩

/-- A system variable is referred to by its cell, unless a column hides it. -/
theorem reference_of_system {name : String} {x : Float} {i : Nat}
    (h : declaration? t.columns name = none)
    (hi : t.systemVariables.entries[i]? = some (name, x)) :
    (t.placement column first r).reference name =
      (Cell.Reference.absolute column (first + i)).text := by
  have hname : t.systemVariables.names[i]? = some name := by
    rw [NameMap.names, List.getElem?_map, hi]
    rfl
  rw [reference_eq, h]
  simp only [get?_inColumn t.systemVariables.nodup_names hname, Option.getD_some]

/-! ### One formula -/

/-- **Scope and worksheet agree on every name.** A name that a formula may use is exported as the
text of a cell, and this cell holds what the name stands for in front of the formula. -/
theorem exists_cell (hids : (t.columns.map Column.id).Nodup) (hcolumn : 1 ≤ column)
    (hs : t.Fills row column first r s) {place : Nat} {c : Column}
    (hplace : t.columns[place]? = some c) {name : String} (hne : name ≠ c.id)
    (h : Resolves t.columns t.systemVariables.names place name) :
    ∃ cell : Nat × Nat, 1 ≤ cell.1 ∧
      Cell.unmarked ((t.placement column first r).reference name) =
        (Cell.Reference.relative cell.1 cell.2).text ∧
      s cell = t.reading row (t.computedBefore place).reverse name := by
  cases h with
  | @earlier c' first' hdecl hc' hle =>
    obtain ⟨hplace', rfl⟩ := declaration?_eq_some hdecl
    refine ⟨(first' + 1, r), Nat.le_add_left _ _, ?_, ?_⟩
    · rw [reference_eq, hdecl, Cell.Reference.unmarked_text]
      rfl
    · rw [reading_of_earlier hids hplace hplace' hle hne]
      exact hs.computed hplace' hc' (mem_values hplace' hc')
  | @data c' first' hdecl hdata =>
    obtain ⟨hplace', rfl⟩ := declaration?_eq_some hdecl
    refine ⟨(first' + 1, r), Nat.le_add_left _ _, ?_, ?_⟩
    · rw [reference_eq, hdecl, Cell.Reference.unmarked_text]
      rfl
    · rw [reading_of_data hids hplace' hdata]
      exact hs.data hplace' hdata
  | system hdecl hknown =>
    obtain ⟨p, hp, rfl⟩ := List.mem_map.1 hknown
    obtain ⟨i, hi⟩ := List.mem_iff_getElem?.1 hp
    refine ⟨(column, first + i), hcolumn, ?_, ?_⟩
    · rw [reference_of_system hdecl hi, Cell.Reference.unmarked_text]
      rfl
    · rw [reading_of_system hdecl hp]
      exact hs.system hi

/-! ### A filled worksheet -/

/-- A worksheet that holds the values of a template. -/
def sheet (t : Template) (row : Row) (column first r : Nat) : Sheet := fun (c, l) =>
  match if l = r ∧ 1 ≤ c then t.columns[c - 1]? else none with
  | some col =>
    if col.isData then t.options.fieldMap.resolve col.id row
    else t.reading row t.computed.reverse col.id
  | none =>
    if c = column ∧ first ≤ l then
      ((t.systemVariables.entries[l - first]?).map Prod.snd).getD 0
    else 0

/-- The values of columns and variables have room on one worksheet. -/
theorem fills_sheet (hapart : ∀ i < t.systemVariables.size, first + i = r →
    t.columns.length < column) : t.Fills row column first r (t.sheet row column first r) where
  data := by
    intro place c hplace hdata
    simp [sheet, hplace, hdata]
  computed := by
    intro place c x hplace hc hx
    have hdata : ¬ c.isData = true := Column.not_isData_iff.2 hc
    rw [values_eq] at hx
    obtain ⟨id, -, heq⟩ := List.mem_map.1 hx
    obtain ⟨rfl, rfl⟩ := Prod.mk.inj heq
    simp [sheet, hplace, hdata]
  system := by
    intro i name x hi
    have hlt : i < t.systemVariables.size := (List.getElem?_eq_some_iff.1 hi).1
    have hfree : (if first + i = r ∧ 1 ≤ column then t.columns[column - 1]? else none) = none := by
      split_ifs with hrow
      · have hroom := hapart i hlt hrow.1
        exact List.getElem?_eq_none (by omega)
      · rfl
    simp [sheet, hfree, hi]

/-! ### The whole template -/

/-- **Preview and export agree.** Where nothing is wrong with a template, no argument of a formula
is left as tokens and no literal is infinite, and the system variables stand apart from the columns,
the values of the template fill a worksheet; and on every such worksheet the exported formula of
each computed column, read without its marks, has the calculated value of the column. -/
theorem export_agrees (hissues : t.issues = [])
    (hplain : ∀ c ∈ t.computed, ∀ formula e, c.formula = some formula →
      Formula.parse t.options.limits formula = .ok e → e.isPlain = true)
    (hcolumn : 1 ≤ column)
    (hapart : ∀ i < t.systemVariables.size, first + i = r → t.columns.length < column) :
    (∃ s, t.Fills row column first r s) ∧
    ∀ s, t.Fills row column first r s →
      ∀ place c, t.columns[place]? = some c → c.isComputed = true →
        ∃ f ∈ (RowPlan.ofColumns t.options.limits t.columns
            (.inColumn t.systemVariables.names column first) r).formulas,
          f.column = c.id ∧ f.cell = .relative (place + 1) r ∧
          ∀ l : Formula.Limits, l.Exceed (Cell.unmarked f.body).length →
            ∃ e, Formula.parse l ("=" ++ Cell.unmarked f.body) = .ok e ∧
              (c.id, s.value e) ∈ t.values row := by
  refine ⟨⟨_, fills_sheet hapart⟩, fun s hs place c hplace hc => ?_⟩
  have hsound := sound_of_check hissues
  obtain ⟨formula, e, hformula, hparse, hnames⟩ := hsound.formula hplace hc
  have hplain' := hplain c (List.mem_filter.2 ⟨List.mem_of_getElem? hplace, hc⟩) _ _ hformula hparse
  -- the cell of every name holds what the name stands for in front of the column
  let cellName := fun name => Cell.unmarked ((t.placement column first r).reference name)
  have hcells : ∀ name ∈ e.names, Formula.IsWord (cellName name) ∧
      s (Cell.addressed (cellName name)) = t.reading row (t.computedBefore place).reverse name := by
    intro name hname
    obtain ⟨hne, hresolves⟩ := hnames name (List.mem_eraseDups.2 hname)
    obtain ⟨cell, hcell, htext, hvalue⟩ :=
      exists_cell hsound.nodup hcolumn hs hplace hne hresolves
    simp only [cellName, htext, Cell.Reference.addressed_text_relative]
    exact ⟨Cell.Reference.isWord_text_relative hcell _, hvalue⟩
  obtain ⟨f, hf, hid, hcell, hbody⟩ := RowPlan.exists_formula hplace hc hformula
  refine ⟨f, hf, hid, hcell, fun l hl => ⟨e.exported cellName, ?_, ?_⟩⟩
  · rw [hbody] at hl ⊢
    exact Formula.parse_unmarked_body hparse hplain' (fun name hname => (hcells name hname).1) hl
  · have hself : c.id ∉ e.identifiers := fun hmem => (hnames c.id hmem).1 rfl
    have hvalue : s.value (e.exported cellName) = t.reading row t.computed.reverse c.id := by
      rw [reading_computed_self hsound.nodup hplace hc, resultAfter,
        orZero_result hformula hparse hself, Sheet.value, Formula.Expr.eval_exported,
        Formula.Expr.eval_congr e fun name hname => (hcells name hname).2]
    rw [hvalue]
    exact mem_values hplace hc

/-- A column at a tariff that stands in cell `$O$5`, and a column behind it, on row 7. -/
theorem export_agrees_tariff :
    let t : Template := {
      columns := [⟨"km", .data, none⟩, ⟨"bedrag", .computed, some "=km*tarief"⟩,
        ⟨"half", .computed, some "=-(bedrag+km)/2"⟩]
      systemVariables := .ofList [("tarief", 0.5)] }
    let row := Row.empty.insert "km" (.number 100)
    let plan := RowPlan.ofColumns {} t.columns (.inColumn ["tarief"] 15 5) 7
    t.issues = [] ∧ plan.formulas.map CellFormula.text = ["=A7*$O$5", "=-(B7+A7)/2"] ∧
    (∃ s, t.Fills row 15 5 7 s) ∧
    ∀ s, t.Fills row 15 5 7 s → ∀ place c, t.columns[place]? = some c → c.isComputed = true →
      ∃ f ∈ plan.formulas, f.column = c.id ∧ f.cell = .relative (place + 1) 7 ∧
        ∀ l : Formula.Limits, l.Exceed (Cell.unmarked f.body).length →
          ∃ e, Formula.parse l ("=" ++ Cell.unmarked f.body) = .ok e ∧
            (c.id, s.value e) ∈ t.values row := by
  intro t row plan
  have hissues : t.issues = [] := by decide +kernel
  have hfirst : Formula.parse {} "=km*tarief" =
      .ok (.binary .mul (.identifier "km") (.identifier "tarief")) := rfl
  have hsecond : Formula.parse {} "=-(bedrag+km)/2" =
      .ok (.binary .div (.negate (.group (.binary .add (.identifier "bedrag") (.identifier "km"))))
        (.number (Number.ofDigits ['2'] []))) := rfl
  refine ⟨hissues, by decide +kernel, export_agrees hissues ?_ (by decide) ?_⟩
  · intro c hc formula e hformula hparse
    have hcolumns : t.computed = [⟨"bedrag", .computed, some "=km*tarief"⟩,
        ⟨"half", .computed, some "=-(bedrag+km)/2"⟩] := rfl
    rw [hcolumns] at hc
    rcases List.mem_pair.1 hc with rfl | rfl
    · obtain rfl := Option.some.inj hformula
      obtain rfl := Except.ok.inj (hfirst.symm.trans hparse)
      rfl
    · obtain rfl := Option.some.inj hformula
      obtain rfl := Except.ok.inj (hsecond.symm.trans hparse)
      decide +kernel
  · intro i _ _
    show 3 < 15
    decide

end Template
end SheetTemplate
