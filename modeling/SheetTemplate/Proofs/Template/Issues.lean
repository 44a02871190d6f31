import SheetTemplate.Proofs.Template.Check
import SheetTemplate.Template.Calculation
import Mathlib.Data.List.TakeWhile

/-!
# What an issue says

Every problem of a template is either a repeated id or found in one computed column. A column whose
formula is no tree has one problem, and this column is calculated as invalid
(`columnIssues_of_tree?_eq_none`). A column whose formula is a tree has the problems of the names in
it, each of which says where the name is declared: a self reference names the column itself
(`nameIssue_self`), a forward reference a computed column further on, and an unknown identifier no
column and no system variable (`nameIssue_cases`).
-/

namespace SheetTemplate

namespace Issue

/-- Whether the problem is a computed column without a formula. -/
def isMissingFormula : Issue → Bool
  | missingFormula _ => true
  | _ => false

/-- Whether the problem is a formula that is not read. -/
def isInvalidFormula : Issue → Bool
  | invalidFormula _ _ => true
  | _ => false

/-- Whether the problem is a formula that refers to its own column. -/
def isSelfReference : Issue → Bool
  | selfReference _ => true
  | _ => false

/-- Whether the problem is a name in a formula. -/
def isName : Issue → Bool
  | selfReference _ | forwardReference _ _ | unknownIdentifier _ _ => true
  | _ => false

end Issue

/-- The tree of the formula of a column, where it has a formula that is read. -/
def Column.tree? (l : Formula.Limits) (c : Column) : Option Formula.Expr :=
  match c.formula with
  | none => none
  | some formula =>
    match Formula.parse l formula with
    | .error _ => none
    | .ok e => some e

theorem Column.tree?_eq_some_iff {l : Formula.Limits} {c : Column} {e : Formula.Expr} :
    c.tree? l = some e ↔ ∃ formula, c.formula = some formula ∧ Formula.parse l formula = .ok e := by
  unfold tree?
  cases c.formula with
  | none => simp
  | some formula => cases hparse : Formula.parse l formula <;> simp [hparse]

/-- The plan of a column is that of its tree. -/
theorem Column.plan_eq (l : Formula.Limits) (c : Column) : c.plan l =
    match c.tree? l with
    | none => .invalid
    | some e => if e.references c.id then .selfReference else .evaluate e := by
  cases hformula : c.formula with
  | none => simp [plan, tree?, hformula]
  | some formula => cases hparse : Formula.parse l formula <;> simp [plan, tree?, hformula, hparse]

theorem Column.plan_eq_evaluate_iff {l : Formula.Limits} {c : Column} {e : Formula.Expr} :
    c.plan l = .evaluate e ↔ c.tree? l = some e ∧ c.id ∉ e.identifiers := by
  rw [plan_eq]
  cases c.tree? l with
  | none => simp
  | some e' =>
    by_cases href : e'.references c.id = true
    · simp only [href, if_true, reduceCtorEq, Option.some.injEq, false_iff]
      rintro ⟨rfl, hid⟩
      exact hid (List.contains_iff_mem.1 href)
    · simp only [href, Bool.false_eq_true, if_false, Plan.evaluate.injEq, Option.some.injEq]
      refine ⟨?_, And.left⟩
      rintro rfl
      exact ⟨rfl, fun hid => href (List.contains_iff_mem.2 hid)⟩

namespace Template

variable {columns : List Column} {known : List String} {l : Formula.Limits}

/-! ### The problem of a name -/

theorem nameIssue_self (id : String) (place : Nat) :
    nameIssue columns known id place id = some (.selfReference id) := by
  rw [nameIssue, if_pos rfl]

/-- A problem of a name says where the name is declared. -/
theorem nameIssue_cases {id name : String} {place : Nat} {i : Issue}
    (h : nameIssue columns known id place name = some i) :
    (name = id ∧ i = .selfReference id) ∨
    (name ≠ id ∧ i = .forwardReference id name ∧ ∃ c first,
      declaration? columns name = some (c, first) ∧ c.isComputed = true ∧ place < first) ∨
    (name ≠ id ∧ i = .unknownIdentifier id name ∧ declaration? columns name = none ∧
      name ∉ known) := by
  have hcases := resolves_or_nameIssue columns known id place name
  simp only [h, Option.some_inj, reduceCtorEq, false_and, and_false, false_or] at hcases
  exact hcases

theorem nameIssue_of_later {id name : String} {place first : Nat} {c : Column} (hid : name ≠ id)
    (hdecl : declaration? columns name = some (c, first)) (hc : c.isComputed = true)
    (hlt : place < first) :
    nameIssue columns known id place name = some (.forwardReference id name) := by
  simp [nameIssue, hid, hdecl, hc, hlt]

theorem nameIssue_of_unknown {id name : String} {place : Nat} (hid : name ≠ id)
    (hdecl : declaration? columns name = none) (hknown : name ∉ known) :
    nameIssue columns known id place name = some (.unknownIdentifier id name) := by
  simp [nameIssue, hid, hdecl, hknown]

/-! ### The problems of a column -/

/-- A blank text is no formula. -/
theorem parse_of_blank {formula : String} (h : Text.trim formula.toList = []) :
    Formula.parse l formula = .error .missingEquals := by
  unfold Formula.parse
  cases hcs : formula.toList with
  | nil => rfl
  | cons c cs =>
    have hc : c ≠ '=' := by
      rintro rfl
      rw [hcs, Text.trim, List.dropWhile_cons_of_neg (by decide), List.reverse_eq_nil_iff,
        List.dropWhile_eq_nil_iff] at h
      exact absurd (h '=' (by simp)) (by decide)
    unfold Formula.parseChars
    split
    · rename_i heq
      exact absurd (List.cons.inj heq).1 hc
    · rfl

theorem columnIssues_of_data {c : Column} (hc : c.isComputed = false) (place : Nat) :
    columnIssues l columns known c place = [] := by
  rw [columnIssues, hc]
  rfl

/-- A formula that is no tree is the one problem of its column. -/
theorem columnIssues_of_tree?_eq_none {c : Column} (hc : c.isComputed = true)
    (h : c.tree? l = none) (place : Nat) :
    columnIssues l columns known c place = [.missingFormula c.id] ∨
      ∃ e, columnIssues l columns known c place = [.invalidFormula c.id e] := by
  unfold Column.tree? at h
  unfold columnIssues
  rw [if_pos hc]
  cases hformula : c.formula with
  | none => exact .inl rfl
  | some formula =>
    simp only [hformula] at h ⊢
    split_ifs with hblank
    · exact .inl rfl
    · cases hparse : Formula.parse l formula with
      | ok e => simp [hparse] at h
      | error e => exact .inr ⟨e, rfl⟩

/-- The problems of a tree are those of its names. -/
theorem columnIssues_of_tree?_eq_some {c : Column} {e : Formula.Expr} (hc : c.isComputed = true)
    (h : c.tree? l = some e) (place : Nat) : columnIssues l columns known c place =
      e.identifiers.filterMap (nameIssue columns known c.id place) := by
  unfold Column.tree? at h
  unfold columnIssues
  rw [if_pos hc]
  cases hformula : c.formula with
  | none => simp [hformula] at h
  | some formula =>
    simp only [hformula] at h ⊢
    cases hparse : Formula.parse l formula with
    | error _ => simp [hparse] at h
    | ok e' =>
      simp only [hparse, Option.some.injEq] at h ⊢
      subst h
      rw [if_neg fun hblank => by simp [parse_of_blank hblank] at hparse]

/-! ### The problems of a template -/

theorem mem_duplicates {seen : List String} {i : Issue} (h : i ∈ duplicates seen columns) :
    ∃ id, i = .duplicateColumn id := by
  induction columns generalizing seen with
  | nil => cases h
  | cons c cs ih =>
    rw [duplicates] at h
    split_ifs at h
    · rcases List.mem_cons.1 h with rfl | h
      · exact ⟨_, rfl⟩
      · exact ih h
    · exact ih h

theorem mem_check_of_mem_columnIssues {c : Column} {place : Nat} {i : Issue}
    (hplace : columns[place]? = some c) (h : i ∈ columnIssues l columns known c place) :
    i ∈ check l columns known :=
  List.mem_append_right _
    (List.mem_flatMap.2 ⟨(c, place), List.mem_zipIdx_iff_getElem?.2 hplace, h⟩)

/-- A problem with a name is found in the tree of a computed column. -/
theorem exists_name_of_mem_check {i : Issue} (h : i ∈ check l columns known)
    (hi : i.isName = true) : ∃ place c e name, columns[place]? = some c ∧ c.isComputed = true ∧
      c.tree? l = some e ∧ name ∈ e.identifiers ∧
      nameIssue columns known c.id place name = some i := by
  rcases List.mem_append.1 h with h | h
  · obtain ⟨id, rfl⟩ := mem_duplicates h
    cases hi
  · obtain ⟨⟨c, place⟩, hmem, hissue⟩ := List.mem_flatMap.1 h
    have hplace := List.mem_zipIdx_iff_getElem?.1 hmem
    by_cases hc : c.isComputed = true
    · cases htree : c.tree? l with
      | none =>
        rcases columnIssues_of_tree?_eq_none hc htree place with heq | ⟨e, heq⟩ <;>
        · rw [heq, List.mem_singleton] at hissue
          subst hissue
          cases hi
      | some e =>
        rw [columnIssues_of_tree?_eq_some hc htree place, List.mem_filterMap] at hissue
        obtain ⟨name, hname, hissue⟩ := hissue
        exact ⟨place, c, e, name, hplace, hc, htree, hname, hissue⟩
    · rw [columnIssues_of_data (by simpa using hc)] at hissue
      cases hissue

end Template
end SheetTemplate
