import SheetTemplate.Proofs.Template.Check
import SheetTemplate.Template.Export

/-!
# Where columns stand on a worksheet

A column of a template stands in the worksheet column of its first declaration
(`position?_ofColumns`). So a name in an exported formula is the cell of a declared column, or the
reference of a system variable, or itself (`reference_ofColumns`); and the formula of every computed
column stands in the cell of its own place (`exists_formula`).
-/

namespace SheetTemplate

namespace Column.Index

theorem get?_enter (m : NameMap Nat) (k : Nat) (cs : List Column) (id : String) :
    (enter m (k + 1) cs).get? id =
      (m.get? id).or (((cs.zipIdx k).find? fun p => p.1.id = id).map fun p => p.2 + 1) := by
  induction cs generalizing m k with
  | nil => simp [enter]
  | cons c cs ih =>
    rw [enter, ih, List.zipIdx_cons, List.find?_cons]
    by_cases hid : c.id = id
    · subst hid
      simp only [decide_true, Option.map_some]
      cases hget : m.get? c.id with
      | none => simp [NameMap.contains, hget]
      | some n => simp [NameMap.contains, hget]
    · have hinsert : ∀ n, (m.insert c.id n).get? id = m.get? id := by
        intro n
        rw [NameMap.get?_insert, if_neg (Ne.symm hid)]
      rw [decide_eq_false hid]
      split_ifs
      · rfl
      · rw [hinsert]

/-- The first declaration of an id is its position on a worksheet. -/
theorem position?_ofColumns (cs : List Column) (id : String) :
    (ofColumns cs).position? id = (Template.declaration? cs id).map fun p => p.2 + 1 := by
  show (enter .empty 1 cs).get? id = _
  rw [get?_enter, NameMap.get?_empty, Option.none_or]
  rfl

theorem cell?_ofColumns (cs : List Column) (id : String) (row : Nat) :
    (ofColumns cs).cell? id row =
      (Template.declaration? cs id).map fun p => .relative (p.2 + 1) row := by
  rw [cell?, position?_ofColumns, Option.map_map]
  rfl

theorem contains_ofColumns {cs : List Column} {id : String} :
    (ofColumns cs).contains id = false ↔ ∀ c ∈ cs, c.id ≠ id := by
  show ((ofColumns cs).position? id).isSome = false ↔ _
  rw [position?_ofColumns, Option.isSome_map, Option.isSome_eq_false_iff,
    Option.isNone_iff_eq_none, Template.declaration?_eq_none_iff]

end Column.Index

variable {columns : List Column} {row : Nat} {refs : Formula.VariableRefs}

theorem Formula.Placement.reference_ofColumns (name : String) :
    Placement.reference ⟨.ofColumns columns, row, refs⟩ name =
      match Template.declaration? columns name with
      | some (_, place) => (Cell.Reference.relative (place + 1) row).text
      | none => (refs.get? name).getD name := by
  rw [reference, Column.Index.cell?_ofColumns]
  cases Template.declaration? columns name <;> rfl

/-- The exported formula of a column is in the plan of the row. -/
theorem RowPlan.exists_formula {l : Formula.Limits} {place : Nat} {c : Column} {formula : String}
    (hplace : columns[place]? = some c) (hc : c.isComputed = true)
    (hformula : c.formula = some formula) :
    ∃ f ∈ (ofColumns l columns refs row).formulas,
      f.column = c.id ∧ f.cell = .relative (place + 1) row ∧
      f.body =
        Formula.body l (Formula.Placement.reference ⟨.ofColumns columns, row, refs⟩) formula := by
  refine ⟨_, List.mem_map.2 ⟨(c, place), List.mem_filter.2 ⟨?_, hc⟩, rfl⟩, rfl, rfl, ?_⟩
  · exact List.mk_mem_zipIdx_iff_getElem?.2 hplace
  · simp only [cellFormula, hformula]

end SheetTemplate
