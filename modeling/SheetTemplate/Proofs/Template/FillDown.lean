import SheetTemplate.CommandLine.Run
import SheetTemplate.Proofs.Cell.Address
import SheetTemplate.Proofs.Formula.Pieces
import SheetTemplate.Proofs.Template.Placement
import Mathlib.Data.List.Nodup

/-!
# Filling down

A worksheet fills a formula down by moving the cells of its own row, and leaves everything else as
it is. The plans of a template are such a fill-down. The body of every computed column has pieces
that are fixed texts or worksheet columns (`FillPiece`), the same ones on every row, and a column
stands for its cell on that row (`ofColumns_eq_fillDown`).

So the plans of consecutive rows have one formula for each computed column on each row, all in cells
of their own, and all of them use the same references. The printed export may therefore leave out
the references of all rows but the first (`ofRows_fillDown`).
-/

namespace SheetTemplate

/-! ### Pieces -/

namespace Formula

/-- A piece of a formula that is filled down: a fixed text, or the cell of a worksheet column on the
row of the formula. -/
inductive FillPiece
  | text (cs : List Char)
  | column (position : Nat)
  deriving DecidableEq

/-- The text of a piece on a row. -/
def FillPiece.chars (row : Nat) : FillPiece → List Char
  | text cs => cs
  | column position => Cell.lettersOfColumn position ++ Number.digitsOfNat row

/-- What a piece of an exported text is on all rows: a name is the column of its position, the text
of its reference or itself. -/
def Piece.fill (columns : Column.Index) (refs : VariableRefs) : Piece → FillPiece
  | text cs => .text cs
  | name n =>
    match columns.position? n with
    | some position => .column position
    | none => .text ((refs.get? n).getD n).toList

theorem Piece.chars_fill (p : Placement) (piece : Piece) :
    (piece.fill p.columns p.refs).chars p.row = piece.chars p.reference := by
  cases piece with
  | text cs => rfl
  | name n =>
    rw [fill, chars, Placement.reference, Column.Index.cell?]
    cases p.columns.position? n with
    | none => rfl
    | some position =>
      simp [FillPiece.chars, Cell.Reference.text_relative]

end Formula

/-- The pieces of the exported formula of a column. -/
def Column.fillPieces (l : Formula.Limits) (columns : Column.Index) (refs : Formula.VariableRefs)
    (c : Column) : List Formula.FillPiece :=
  match c.formula with
  | none => [.text ['0']]
  | some formula => (Formula.pieces l formula.toList).map (Formula.Piece.fill columns refs)

/-- The pieces of a formula are its own cells and fixed texts, wherever it is placed. -/
theorem RowPlan.body_cellFormula (l : Formula.Limits) (p : Formula.Placement) (c : Column)
    (place : Nat) : (cellFormula l p c place).body =
      String.ofList
        ((c.fillPieces l p.columns p.refs).flatMap (Formula.FillPiece.chars p.row)) := by
  rw [cellFormula, Column.fillPieces]
  cases c.formula with
  | none => rfl
  | some formula =>
    simp only [Formula.body, Formula.bodyChars_eq_flatMap, List.flatMap_map,
      Formula.Piece.chars_fill]

/-- The columns among the pieces are columns of the template. -/
theorem Column.position_of_mem_fillPieces {l : Formula.Limits} {columns : List Column}
    {refs : Formula.VariableRefs} {c : Column} {position : Nat}
    (h : .column position ∈ c.fillPieces l (.ofColumns columns) refs) :
    1 ≤ position ∧ position ≤ columns.length := by
  rw [fillPieces] at h
  cases hformula : c.formula with
  | none => simp [hformula] at h
  | some formula =>
    simp only [hformula, List.mem_map] at h
    obtain ⟨piece, -, hpiece⟩ := h
    cases piece with
    | text cs => cases hpiece
    | name n =>
      rw [Formula.Piece.fill, Column.Index.position?_ofColumns] at hpiece
      cases hdecl : Template.declaration? columns n with
      | none => simp [hdecl] at hpiece
      | some p =>
        obtain ⟨c', place⟩ := p
        have hlt := (List.getElem?_eq_some_iff.1 (Template.declaration?_eq_some hdecl).1).1
        simp only [hdecl, Option.map_some, Formula.FillPiece.column.injEq] at hpiece
        omega

/-! ### Rows -/

namespace RowPlan

variable {l : Formula.Limits} {columns : List Column} {refs : Formula.VariableRefs}
  {first count : Nat}

/-- The computed columns of a template with their places. -/
def placed (columns : List Column) : List (Column × Nat) :=
  columns.zipIdx.filter fun p => p.1.isComputed

/-- One plan on a row of its own: every computed column has its pieces in its cell of the row. -/
def fillDown (columns : List Column) (pieces : Column → List Formula.FillPiece)
    (used : Formula.VariableRefs) (row : Nat) : RowPlan :=
  ⟨(placed columns).map fun p => ⟨p.1.id, .relative (p.2 + 1) row,
    String.ofList ((pieces p.1).flatMap (Formula.FillPiece.chars row))⟩, used⟩

/-- **The plan of every row is one plan filled down.** -/
theorem ofColumns_eq_fillDown (l : Formula.Limits) (columns : List Column)
    (refs : Formula.VariableRefs) (row : Nat) : ofColumns l columns refs row =
      fillDown columns (Column.fillPieces l (.ofColumns columns) refs)
        (ofColumns l columns refs 0).refs row := by
  have hbody : ∀ p : Column × Nat, cellFormula l ⟨.ofColumns columns, row, refs⟩ p.1 p.2 =
      ⟨p.1.id, .relative (p.2 + 1) row, String.ofList
        ((p.1.fillPieces l (.ofColumns columns) refs).flatMap (Formula.FillPiece.chars row))⟩ :=
    fun p => congrArg (CellFormula.mk p.1.id _) (body_cellFormula l ⟨_, row, refs⟩ p.1 p.2)
  simp only [ofColumns, fillDown, placed, hbody]

theorem ofRows_eq_map (h : first + count ≤ Cell.maxCount) (l : Formula.Limits)
    (columns : List Column) (refs : Formula.VariableRefs) :
    ofRows l columns refs first count =
      (List.range' first count).map (ofColumns l columns refs) := by
  rw [ofRows, Nat.min_eq_left h, Nat.add_sub_cancel_left]

theorem nodup_places (columns : List Column) : ((placed columns).map Prod.snd).Nodup :=
  (List.nodup_zipIdx_map_snd columns).sublist (List.filter_sublist.map Prod.snd)

theorem nodup_cells_fillDown (columns : List Column) (pieces : Column → List Formula.FillPiece)
    (used : Formula.VariableRefs) (row : Nat) :
    ((fillDown columns pieces used row).formulas.map CellFormula.cell).Nodup := by
  have hcells : (fillDown columns pieces used row).formulas.map CellFormula.cell =
      ((placed columns).map Prod.snd).map fun place => .relative (place + 1) row := by
    simp [fillDown]
  rw [hcells]
  apply (nodup_places columns).map
  intro place place' heq
  simpa [Cell.Reference.relative] using heq

theorem row_of_mem_fillDown {pieces : Column → List Formula.FillPiece}
    {used : Formula.VariableRefs} {row : Nat} {f : CellFormula}
    (h : f ∈ (fillDown columns pieces used row).formulas) : f.cell.row = row := by
  obtain ⟨p, -, rfl⟩ := List.mem_map.1 h
  rfl

/-- **The formulas of different rows and columns stand in different cells.** -/
theorem nodup_cells (l : Formula.Limits) (columns : List Column) (refs : Formula.VariableRefs)
    {rows : List Nat} (hrows : rows.Nodup) :
    ((rows.map (ofColumns l columns refs)).flatMap fun plan =>
      plan.formulas.map CellFormula.cell).Nodup := by
  rw [List.flatMap_map, List.nodup_flatMap]
  constructor
  · intro row _
    rw [ofColumns_eq_fillDown]
    exact nodup_cells_fillDown columns _ _ row
  · apply hrows.pairwise_of_forall_ne
    intro row _ row' _ hne
    rw [Function.onFun, List.disjoint_left]
    intro cell hcell hcell'
    obtain ⟨f, hf, rfl⟩ := List.mem_map.1 hcell
    obtain ⟨f', hf', heq⟩ := List.mem_map.1 hcell'
    rw [ofColumns_eq_fillDown] at hf hf'
    apply hne
    rw [← row_of_mem_fillDown hf, ← row_of_mem_fillDown hf', heq]

end RowPlan

/-! ### The printed export -/

namespace CommandLine

/-- The lines of the formulas of a plan. -/
def formulaLines (plan : RowPlan) : List String :=
  plan.formulas.map fun f => f.cell.text ++ "\t" ++ f.text ++ "\n"

/-- The lines of the references that a plan uses. -/
def refLines (plan : RowPlan) : List String :=
  plan.refs.entries.map fun e => e.2 ++ "\t" ++ e.1 ++ "\n"

/-- Where all rows use the same references, the printed export has the formulas of all rows and the
references of any of them. -/
theorem exportText_eq {plans : List RowPlan} {used : Formula.VariableRefs}
    (h : ∀ plan ∈ plans, plan.refs = used) {plan : RowPlan} (hplan : plan ∈ plans) :
    exportText plans = String.join (plans.flatMap formulaLines ++ refLines plan) := by
  cases plans with
  | nil => cases hplan
  | cons head plans =>
    have hrefs : head.refs = plan.refs := (h head List.mem_cons_self).trans (h plan hplan).symm
    have hlines : refLines head = refLines plan := by rw [refLines, refLines, hrefs]
    rw [← hlines]
    simp only [exportText, List.head?_cons, Option.toList_some, List.flatMap_singleton]
    rfl

end CommandLine

/-! ### The fill-down -/

/-- **The export of consecutive rows is a fill-down.** One list of pieces for every computed column
and one set of references give the plan of every row, in the order of the rows, and no two formulas
stand in one cell. The printed export has all formulas, and the references of each of its plans. -/
theorem RowPlan.ofRows_fillDown {first count : Nat} (h : first + count ≤ Cell.maxCount)
    (l : Formula.Limits) (columns : List Column) (refs : Formula.VariableRefs) :
    ∃ (pieces : Column → List Formula.FillPiece) (used : Formula.VariableRefs),
      (∀ c ∈ columns, ∀ n, .column n ∈ pieces c → 1 ≤ n ∧ n ≤ columns.length) ∧
      (∀ row, ofColumns l columns refs row = fillDown columns pieces used row) ∧
      ofRows l columns refs first count =
        (List.range' first count).map (fillDown columns pieces used) ∧
      ((ofRows l columns refs first count).flatMap fun plan =>
        plan.formulas.map CellFormula.cell).Nodup ∧
      ∀ plan ∈ ofRows l columns refs first count,
        CommandLine.exportText (ofRows l columns refs first count) =
          String.join ((ofRows l columns refs first count).flatMap CommandLine.formulaLines ++
            CommandLine.refLines plan) := by
  have hplan := ofColumns_eq_fillDown l columns refs
  have hrows := ofRows_eq_map h l columns refs
  have hrefs : ∀ plan ∈ ofRows l columns refs first count,
      plan.refs = (ofColumns l columns refs 0).refs := by
    intro plan hmem
    rw [hrows] at hmem
    obtain ⟨row, -, rfl⟩ := List.mem_map.1 hmem
    rw [hplan row]
    rfl
  refine ⟨_, _, fun c _ n => Column.position_of_mem_fillPieces, hplan, ?_, ?_, ?_⟩
  · rw [hrows]
    exact List.map_congr_left fun row _ => hplan row
  · rw [hrows]
    exact nodup_cells l columns refs (List.nodup_range' 1)
  · intro plan hmem
    exact CommandLine.exportText_eq hrefs hmem

/-- Two rows of a template with a formula that is no expression, whose text is filled down too. -/
theorem RowPlan.ofRows_fillDown_malformed :
    let columns : List Column :=
      [⟨"uren", .data, none⟩, ⟨"bedrag", .computed, some "=uren*tarief"⟩,
        ⟨"half", .computed, some "=bedrag+"⟩, ⟨"leeg", .computed, none⟩]
    let refs : Formula.VariableRefs := .ofList [("tarief", "$O$5")]
    7 + 2 ≤ Cell.maxCount ∧
      ∃ (pieces : Column → List Formula.FillPiece) (used : Formula.VariableRefs),
        (∀ c ∈ columns, ∀ n, .column n ∈ pieces c → 1 ≤ n ∧ n ≤ columns.length) ∧
        (∀ row, ofColumns {} columns refs row = fillDown columns pieces used row) ∧
        ofRows {} columns refs 7 2 = (List.range' 7 2).map (fillDown columns pieces used) ∧
        ((ofRows {} columns refs 7 2).flatMap fun plan =>
          plan.formulas.map CellFormula.cell).Nodup ∧
        ∀ plan ∈ ofRows {} columns refs 7 2,
          CommandLine.exportText (ofRows {} columns refs 7 2) =
            String.join ((ofRows {} columns refs 7 2).flatMap CommandLine.formulaLines ++
              CommandLine.refLines plan) :=
  ⟨by decide, ofRows_fillDown (by decide) _ _ _⟩

example :
    let columns : List Column :=
      [⟨"uren", .data, none⟩, ⟨"bedrag", .computed, some "=uren*tarief"⟩,
        ⟨"half", .computed, some "=bedrag+"⟩, ⟨"leeg", .computed, none⟩]
    CommandLine.exportText (RowPlan.ofRows {} columns (.ofList [("tarief", "$O$5")]) 7 2) =
      "B7\t=A7*$O$5\nC7\t=B7+\nD7\t=0\nB8\t=A8*$O$5\nC8\t=B8+\nD8\t=0\n$O$5\ttarief\n" := by
  decide +kernel

end SheetTemplate
