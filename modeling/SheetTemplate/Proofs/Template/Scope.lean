import SheetTemplate.Proofs.Template.Check
import SheetTemplate.Proofs.Template.Meaning

/-!
# The scope in front of a column

The formula of the column at a place of the template is evaluated in the scope that the computed
columns in front of the place have left behind (`scopeAt`). A name is bound there iff it is a data
column, a system variable or one of these columns (`get?_scopeAt_eq_none_iff`), and it is bound to
what it stands for (`get?_scopeAt`).

Where no id is repeated, what a name stands for in front of its own column is settled by the place
of that column: an earlier column has the value that it keeps (`reading_of_earlier`), a data column
is read from the row (`reading_of_data`), and what is no column is a system variable
(`reading_of_system`).
-/

namespace SheetTemplate.Template

/-- The computed columns in front of a place of the template. -/
def computedBefore (t : Template) (place : Nat) : List Column :=
  (t.columns.take place).filter Column.isComputed

/-- The scope in which the formula of the column at a place of the template is evaluated. -/
def scopeAt (t : Template) (row : Row) (place : Nat) : Formula.Scope :=
  (t.calculateUpTo row (t.computedBefore place)).scope

variable {t : Template} {row : Row}

/-! ### The computed columns in front of a place -/

theorem computed_eq_append (t : Template) (place : Nat) :
    t.computed = t.computedBefore place ++ (t.columns.drop place).filter Column.isComputed := by
  rw [computed, computedBefore, ← List.filter_append, List.take_append_drop]

theorem computedBefore_succ {place : Nat} {c : Column} (h : t.columns[place]? = some c)
    (hc : c.isComputed = true) : t.computedBefore (place + 1) = t.computedBefore place ++ [c] := by
  rw [computedBefore, List.take_add_one, h, List.filter_append]
  simp [computedBefore, hc]

theorem mem_computedBefore {place : Nat} {c : Column} : c ∈ t.computedBefore place ↔
    ∃ i, t.columns[i]? = some c ∧ i < place ∧ c.isComputed = true := by
  rw [computedBefore, List.mem_filter, List.mem_iff_getElem?]
  constructor
  · rintro ⟨⟨i, hi⟩, hc⟩
    rw [List.getElem?_take] at hi
    split_ifs at hi with hlt
    exact ⟨i, hi, hlt, hc⟩
  · rintro ⟨i, hi, hlt, hc⟩
    exact ⟨⟨i, by rwa [List.getElem?_take, if_pos hlt]⟩, hc⟩

theorem mem_computed_of_place {place : Nat} {c : Column} (h : t.columns[place]? = some c)
    (hc : c.isComputed = true) : c ∈ t.computed :=
  List.mem_filter.2 ⟨List.mem_of_getElem? h, hc⟩

/-- A computed column between two places stands between those in front of them. -/
theorem computedBefore_split {place i : Nat} {c : Column} (h : t.columns[i]? = some c)
    (hc : c.isComputed = true) (hi : i < place) : t.computedBefore place =
      t.computedBefore i ++
        c :: ((t.columns.take place).drop (i + 1)).filter Column.isComputed := by
  have hlist : t.columns.take place =
      t.columns.take (i + 1) ++ (t.columns.take place).drop (i + 1) := by
    conv_lhs => rw [← List.take_append_drop (i + 1) (t.columns.take place), List.take_take,
      Nat.min_eq_left hi]
  have hsucc := computedBefore_succ h hc
  rw [computedBefore] at hsucc ⊢
  rw [hlist, List.filter_append, hsucc, ← hlist, List.append_assoc, List.singleton_append]

/-! ### What is bound -/

theorem contains_calculateUpTo {cs : List Column} {name : String} :
    (t.calculateUpTo row cs).scope.contains name = true ↔
      (∃ c ∈ cs, c.id = name) ∨ (∃ c ∈ t.columns, c.isData = true ∧ c.id = name) ∨
        t.systemVariables.contains name = true := by
  induction cs using List.reverseRecOn with
  | nil =>
    show (t.systemVariables.insertAll _).contains name = true ↔ _
    rw [NameMap.contains_insertAll]
    simp [and_assoc]
  | append_singleton cs c ih =>
    rw [calculateUpTo, List.foldl_append]
    show NameMap.contains (NameMap.insert _ c.id _) name = true ↔ _
    rw [NameMap.contains_insert, Bool.or_eq_true, beq_iff_eq]
    change name = c.id ∨ (t.calculateUpTo row cs).scope.contains name = true ↔ _
    rw [ih]
    simp only [List.mem_append, List.mem_singleton, or_and_right, exists_or, exists_eq_left]
    rw [eq_comm (a := name), ← or_assoc, or_comm (a := c.id = name)]

theorem read_scopeAt (t : Template) (row : Row) (place : Nat) :
    Formula.Scope.read (t.scopeAt row place) = t.reading row (t.computedBefore place).reverse :=
  (meets_calculateUpTo t row (t.computedBefore place)).read

/-- A name is free in front of a column iff it is neither given nor computed there. -/
theorem get?_scopeAt_eq_none_iff {place : Nat} {name : String} :
    (t.scopeAt row place).get? name = none ↔
      (∀ i c, t.columns[i]? = some c → c.isComputed = true → i < place → c.id ≠ name) ∧
        (∀ c ∈ t.columns, c.isData = true → c.id ≠ name) ∧
        t.systemVariables.get? name = none := by
  rw [← Option.not_isSome_iff_eq_none, ← Option.not_isSome_iff_eq_none]
  change ¬ (t.calculateUpTo row (t.computedBefore place)).scope.contains name = true ↔ _
  rw [contains_calculateUpTo, not_or, not_or]
  refine and_congr ?_ (and_congr ?_ Iff.rfl)
  · constructor
    · exact fun h i c hi hc hlt hid => h ⟨c, mem_computedBefore.2 ⟨i, hi, hlt, hc⟩, hid⟩
    · rintro h ⟨c, hmem, hid⟩
      obtain ⟨i, hi, hlt, hc⟩ := mem_computedBefore.1 hmem
      exact h i c hi hc hlt hid
  · exact ⟨fun h c hc hdata hid => h ⟨c, hc, hdata, hid⟩,
      fun h ⟨c, hc, hdata, hid⟩ => h c hc hdata hid⟩

/-- A bound name is bound to what it stands for. -/
theorem get?_scopeAt {place : Nat} {name : String} (h : (t.scopeAt row place).get? name ≠ none) :
    (t.scopeAt row place).get? name =
      some (t.reading row (t.computedBefore place).reverse name) := by
  obtain ⟨x, hx⟩ := Option.ne_none_iff_exists'.1 h
  rw [← read_scopeAt, Formula.Scope.read, hx, Option.getD_some]

/-! ### What a name stands for -/

/-- A name of no computed column from a place on stands in front of it for what it stands for at the
end. -/
theorem reading_computedBefore {place : Nat} {name : String}
    (h : ∀ (i : Nat) (c : Column), place ≤ i → t.columns[i]? = some c → c.isComputed = true →
      c.id ≠ name) :
    t.reading row t.computed.reverse name =
      t.reading row (t.computedBefore place).reverse name := by
  rw [computed_eq_append t place, List.reverse_append]
  refine reading_append _ fun c hc => ?_
  obtain ⟨hmem, hcomputed⟩ := List.mem_filter.1 (List.mem_reverse.1 hc)
  obtain ⟨i, hi⟩ := List.mem_iff_getElem?.1 hmem
  rw [List.getElem?_drop] at hi
  exact h _ c (Nat.le_add_right _ _) hi hcomputed

/-- A name of no computed column stands for what is given. -/
theorem reading_of_not_computed {place : Nat} {name : String}
    (h : ∀ (i : Nat) (c : Column), t.columns[i]? = some c → c.isComputed = true → c.id ≠ name) :
    t.reading row (t.computedBefore place).reverse name = t.given row name := by
  refine reading_of_forall_ne fun c hc => ?_
  obtain ⟨i, hi, -, hcomputed⟩ := mem_computedBefore.1 (List.mem_reverse.1 hc)
  exact h i c hi hcomputed

/-- A computed column keeps its value in front of every later column. -/
theorem reading_of_earlier (hids : (t.columns.map Column.id).Nodup) {place place' : Nat}
    {c c' : Column} (hplace : t.columns[place]? = some c) (hplace' : t.columns[place']? = some c')
    (hle : place' ≤ place) (hne : c'.id ≠ c.id) :
    t.reading row (t.computedBefore place).reverse c'.id =
      t.reading row t.computed.reverse c'.id := by
  refine (reading_computedBefore fun i c'' hi hc'' _ hid => ?_).symm
  have hi' := place_unique hids hc'' hplace' hid
  have heq : place = place' := by omega
  subst heq
  rw [hplace] at hplace'
  exact hne (Option.some.inj hplace' ▸ rfl)

/-- A data column is read from the row. -/
theorem reading_of_data (hids : (t.columns.map Column.id).Nodup) {place place' : Nat} {c : Column}
    (hplace : t.columns[place']? = some c) (hdata : c.isData = true) :
    t.reading row (t.computedBefore place).reverse c.id =
      t.options.fieldMap.resolve c.id row := by
  have hother : ∀ (i : Nat) (c' : Column), t.columns[i]? = some c' → c'.isComputed = true →
      c'.id ≠ c.id := by
    intro i c' hc' hcomputed hid
    obtain rfl := place_unique hids hc' hplace hid
    rw [hplace] at hc'
    obtain rfl := Option.some.inj hc'
    exact Column.not_isComputed_iff.2 hdata hcomputed
  rw [reading_of_not_computed hother, given, if_pos ⟨c, List.mem_of_getElem? hplace, hdata, rfl⟩]

/-- A system variable has its value where no column hides it. -/
theorem reading_of_system {place : Nat} {name : String} {x : Float}
    (h : declaration? t.columns name = none) (hx : (name, x) ∈ t.systemVariables.entries) :
    t.reading row (t.computedBefore place).reverse name = x := by
  have hnone := declaration?_eq_none h
  rw [reading_of_not_computed fun _ c hc _ => hnone c (List.mem_of_getElem? hc), given,
    if_neg fun ⟨c, hc, _, hid⟩ => hnone c hc hid, NameMap.get?_eq_some_of_mem hx]
  rfl

theorem mem_values {place : Nat} {c : Column} (h : t.columns[place]? = some c)
    (hc : c.isComputed = true) : (c.id, t.reading row t.computed.reverse c.id) ∈ t.values row := by
  have hmem := mem_computed_of_place h hc
  rw [values_eq]
  exact List.mem_map.2 ⟨c.id, List.mem_eraseDups.2 (List.mem_map_of_mem hmem), rfl⟩

/-- What a column comes to where its formula is read and does not refer to the column. -/
theorem orZero_result {l : Formula.Limits} {value : String → Float} {c : Column} {formula : String}
    {e : Formula.Expr} (hformula : c.formula = some formula)
    (hparse : Formula.parse l formula = .ok e) (hself : c.id ∉ e.identifiers) :
    Reason.orZero (c.result l value) = if (e.eval value).isFinite then e.eval value else 0 := by
  simp only [Column.result, hformula, hparse]
  rw [if_neg hself]
  split_ifs <;> rfl

/-- The calculated value of a column is that of its formula in the scope in front of it. -/
theorem reading_computed_self (hids : (t.columns.map Column.id).Nodup) {place : Nat} {c : Column}
    (hplace : t.columns[place]? = some c) (hc : c.isComputed = true) :
    t.reading row t.computed.reverse c.id =
      Reason.orZero (t.resultAfter row (t.computedBefore place).reverse c) := by
  have hlater : ∀ (i : Nat) (c' : Column), place + 1 ≤ i → t.columns[i]? = some c' →
      c'.isComputed = true → c'.id ≠ c.id := by
    intro i c' hi hc' _ hid
    have hi' := place_unique hids hc' hplace hid
    omega
  rw [reading_computedBefore hlater, computedBefore_succ hplace hc, List.reverse_append,
    List.reverse_singleton, List.singleton_append, reading_cons, if_pos rfl]

end SheetTemplate.Template
