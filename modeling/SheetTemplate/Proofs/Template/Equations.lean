import SheetTemplate.Proofs.Formula.Renaming
import SheetTemplate.Proofs.Template.Issues
import SheetTemplate.Proofs.Template.Scope

/-!
# The computed columns as equations

A template without repeated ids, in which no formula names its own column or a computed column
further on, is `Ordered`. Its computed columns can be read as equations that hold all at once: the
value of each is that of its formula, in the scope that holds the data columns, the system variables
and the values of all computed columns (`Solves`). The calculated values are the one solution of
these equations (`solves_iff_eq_values`). The equations do not know in which order the columns are
declared, so every order without such problems gives the same values.

The argument runs over the places of the template: the names in a formula are settled in front of
its column (`Ordered.earlier`), hence they stand for the same in its own scope and in the scope that
holds all values.
-/

namespace SheetTemplate

/-- Whether a formula names its own column or a computed column further on. -/
def Issue.breaksOrder : Issue → Bool
  | selfReference _ | forwardReference _ _ => true
  | _ => false

/-- The value of a column in a scope: that of its formula, and 0 without one, for one that is not
read, and in place of a value that is infinite or undefined. -/
def Column.valueIn (l : Formula.Limits) (s : Formula.Scope) (c : Column) : Float :=
  let x := match c.formula with
    | none => 0
    | some formula => Formula.evaluate l s formula
  if x.isFinite then x else 0

namespace Template

/-- No id is repeated, and no formula names its own column or a computed column further on, where
the system variables of the given names are there. -/
structure Ordered (t : Template) (known : List String) : Prop where
  nodup : (t.columns.map Column.id).Nodup
  order : ∀ i ∈ check t.options.limits t.columns known, i.breaksOrder = false

/-- The scope of a row in which the computed columns have the values of an assignment. -/
def scopeWith (t : Template) (row : Row) (a : NameMap Float) : Formula.Scope :=
  (Calculation.start t row).scope.insertAll a.entries

/-- An assignment of numbers to the computed ids satisfies the equations of all columns. -/
structure Solves (t : Template) (row : Row) (a : NameMap Float) : Prop where
  ids : ∀ id, a.contains id = true ↔ ∃ c ∈ t.computed, c.id = id
  value : ∀ c ∈ t.computed, a.get? c.id =
    some (c.valueIn t.options.limits (t.scopeWith row a))

variable {t : Template} {row : Row} {known : List String} {a : NameMap Float}

/-! ### The value of a column in a scope -/

theorem valueIn_eq (l : Formula.Limits) (s : Formula.Scope) (c : Column) : c.valueIn l s =
    match c.tree? l with
    | none => 0
    | some e => if (e.eval s.read).isFinite then e.eval s.read else 0 := by
  unfold Column.valueIn Column.tree? Formula.evaluate
  cases c.formula with
  | none => exact if_pos isFinite_zero
  | some formula =>
    cases hparse : Formula.parse l formula with
    | error _ => simp [hparse, isFinite_zero]
    | ok e => simp [hparse]

/-- The value of a column depends on what the names in its formula stand for. -/
theorem valueIn_congr {l : Formula.Limits} {s s' : Formula.Scope} {c : Column}
    (h : ∀ e, c.tree? l = some e → ∀ name ∈ e.identifiers, s.read name = s'.read name) :
    c.valueIn l s = c.valueIn l s' := by
  rw [valueIn_eq, valueIn_eq]
  cases htree : c.tree? l with
  | none => rfl
  | some e =>
    have heval : e.eval s.read = e.eval s'.read :=
      e.eval_congr fun name hname => h e htree name (List.mem_eraseDups.2 hname)
    simp only [heval]

/-- A column that does not name itself comes to its value in the scope in front of it. -/
theorem orZero_result_eq_valueIn {l : Formula.Limits} {s : Formula.Scope} {c : Column}
    (h : ∀ e, c.tree? l = some e → c.id ∉ e.identifiers) :
    Reason.orZero (c.result l s.read) = c.valueIn l s := by
  rw [valueIn_eq]
  unfold Column.tree? at h ⊢
  cases hformula : c.formula with
  | none => simp [Column.result, hformula, Reason.orZero]
  | some formula =>
    cases hparse : Formula.parse l formula with
    | error _ => simp [Column.result, hformula, hparse, Reason.orZero]
    | ok e =>
      simp only [hformula, hparse] at h ⊢
      exact orZero_result hformula hparse (h e rfl)

/-! ### Names in an ordered template -/

/-- A computed column that is named in a formula of an ordered template stands in front of it. -/
theorem Ordered.earlier (h : t.Ordered known) {place : Nat} {c : Column} {e : Formula.Expr}
    (hplace : t.columns[place]? = some c) (hc : c.isComputed = true)
    (htree : c.tree? t.options.limits = some e) {i : Nat} {c' : Column}
    (hi : t.columns[i]? = some c') (hc' : c'.isComputed = true) (hname : c'.id ∈ e.identifiers) :
    i < place := by
  have hissue : ∀ issue, nameIssue t.columns known c.id place c'.id = some issue →
      issue.breaksOrder = false := by
    intro issue hissue
    refine h.order issue (mem_check_of_mem_columnIssues hplace ?_)
    rw [columnIssues_of_tree?_eq_some hc htree]
    exact List.mem_filterMap.2 ⟨_, hname, hissue⟩
  rcases Nat.lt_trichotomy i place with hlt | rfl | hgt
  · exact hlt
  · obtain rfl := Option.some.inj (hplace.symm.trans hi)
    exact absurd (hissue _ (nameIssue_self _ _)) (by simp [Issue.breaksOrder])
  · have hid : c'.id ≠ c.id := fun hid => by
      have := place_unique h.nodup hi hplace hid
      omega
    have hlater : nameIssue t.columns known c.id place c'.id =
        some (.forwardReference c.id c'.id) :=
      nameIssue_of_later hid (declaration?_of_place h.nodup hi) hc' hgt
    exact absurd (hissue _ hlater) (by simp [Issue.breaksOrder])

/-- The names in a formula keep what they stand for in front of its column. -/
theorem Ordered.reading_eq (h : t.Ordered known) {place : Nat} {c : Column} {e : Formula.Expr}
    (hplace : t.columns[place]? = some c) (hc : c.isComputed = true)
    (htree : c.tree? t.options.limits = some e) {name : String} (hname : name ∈ e.identifiers) :
    t.reading row (t.computedBefore place).reverse name =
      t.reading row t.computed.reverse name := by
  refine (reading_computedBefore fun i c' hle hi hc' hid => ?_).symm
  have := h.earlier hplace hc htree hi hc' (hid ▸ hname)
  omega

/-- The calculated value of a column is its value in the scope in front of it. -/
theorem Ordered.reading_self (h : t.Ordered known) {place : Nat} {c : Column}
    (hplace : t.columns[place]? = some c) (hc : c.isComputed = true) :
    t.reading row t.computed.reverse c.id =
      c.valueIn t.options.limits (t.scopeAt row place) := by
  have hself : ∀ e, c.tree? t.options.limits = some e → c.id ∉ e.identifiers := by
    intro e htree hmem
    exact Nat.lt_irrefl _ (h.earlier hplace hc htree hplace hc hmem)
  rw [reading_computed_self h.nodup hplace hc, resultAfter, ← read_scopeAt,
    orZero_result_eq_valueIn hself]

/-! ### Assignments -/

theorem read_scopeWith (t : Template) (row : Row) (a : NameMap Float) (name : String) :
    Formula.Scope.read (t.scopeWith row a) name = (a.get? name).getD (t.given row name) := by
  rw [← read_start, scopeWith, Formula.Scope.read, NameMap.get?_insertAll_entries]
  cases a.get? name <;> rfl

/-- Where an assignment has the calculated value of a name, if this is computed, the name stands for
the same as after the calculation. -/
theorem read_scopeWith_eq_reading (ha : ∀ id, a.contains id = true → ∃ c ∈ t.computed, c.id = id)
    {name : String} (h : ∀ c ∈ t.computed, c.id = name →
      a.get? name = some (t.reading row t.computed.reverse name)) :
    Formula.Scope.read (t.scopeWith row a) name = t.reading row t.computed.reverse name := by
  rw [read_scopeWith]
  by_cases hname : ∃ c ∈ t.computed, c.id = name
  · obtain ⟨c, hc, hid⟩ := hname
    rw [h c hc hid, Option.getD_some]
  · have hnone : a.get? name = none :=
      Option.not_isSome_iff_eq_none.1 fun hsome => hname (ha name hsome)
    rw [hnone, Option.getD_none, reading_of_forall_ne]
    exact fun c hc hid => hname ⟨c, List.mem_reverse.1 hc, hid⟩

/-- An assignment that has the calculated values of the names in a formula gives its column the
calculated value. -/
theorem Ordered.valueIn_scopeWith (h : t.Ordered known)
    (ha : ∀ id, a.contains id = true → ∃ c ∈ t.computed, c.id = id) {place : Nat} {c : Column}
    (hplace : t.columns[place]? = some c) (hc : c.isComputed = true)
    (hvalues : ∀ i c', t.columns[i]? = some c' → c'.isComputed = true → i < place →
      a.get? c'.id = some (t.reading row t.computed.reverse c'.id)) :
    c.valueIn t.options.limits (t.scopeWith row a) = t.reading row t.computed.reverse c.id := by
  rw [h.reading_self hplace hc]
  refine valueIn_congr fun e htree name hname => ?_
  rw [read_scopeAt, h.reading_eq hplace hc htree hname]
  refine read_scopeWith_eq_reading ha fun c' hmem hid => ?_
  obtain ⟨hmem, hc'⟩ := List.mem_filter.1 hmem
  obtain ⟨i, hi⟩ := List.mem_iff_getElem?.1 hmem
  rw [← hid]
  exact hvalues i c' hi hc' (h.earlier hplace hc htree hi hc' (hid ▸ hname))

theorem get?_ofList_values (t : Template) (row : Row) (id : String) :
    (NameMap.ofList (t.values row)).get? id =
      if ∃ c ∈ t.computed, c.id = id then some (t.reading row t.computed.reverse id) else none := by
  rw [values_eq, NameMap.ofList, NameMap.get?_insertAll_map, NameMap.get?_empty]
  simp

theorem mem_values_iff {p : String × Float} :
    p ∈ t.values row ↔ (NameMap.ofList (t.values row)).get? p.1 = some p.2 := by
  refine (NameMap.get?_ofList_eq_some_iff
    (f := fun id => some (t.reading row t.computed.reverse id)) fun p hp => ?_).symm
  rw [values_eq] at hp
  obtain ⟨id, -, rfl⟩ := List.mem_map.1 hp
  rfl

/-! ### The one solution -/

theorem Ordered.solves_values (h : t.Ordered known) (row : Row) :
    t.Solves row (.ofList (t.values row)) := by
  have hids : ∀ id, (NameMap.ofList (t.values row)).contains id = true ↔
      ∃ c ∈ t.computed, c.id = id := by
    intro id
    rw [NameMap.contains, get?_ofList_values]
    split_ifs with hid <;> simpa using hid
  have hget : ∀ c ∈ t.computed, (NameMap.ofList (t.values row)).get? c.id =
      some (t.reading row t.computed.reverse c.id) := by
    intro c hc
    rw [get?_ofList_values, if_pos ⟨c, hc, rfl⟩]
  refine ⟨hids, fun c hmem => ?_⟩
  obtain ⟨hcolumn, hc⟩ := List.mem_filter.1 hmem
  obtain ⟨place, hplace⟩ := List.mem_iff_getElem?.1 hcolumn
  rw [hget c hmem, h.valueIn_scopeWith (fun id => (hids id).1) hplace hc fun i c' hi hc' _ =>
    hget c' (mem_computed_of_place hi hc')]

/-- Column by column, a solution has the calculated values. -/
theorem Ordered.get?_of_solves (h : t.Ordered known) (ha : t.Solves row a) {place : Nat}
    {c : Column} (hplace : t.columns[place]? = some c) (hc : c.isComputed = true) :
    a.get? c.id = some (t.reading row t.computed.reverse c.id) := by
  induction place using Nat.strong_induction_on generalizing c with
  | _ place ih =>
    rw [ha.value c (mem_computed_of_place hplace hc), h.valueIn_scopeWith
      (fun id => (ha.ids id).1) hplace hc fun i c' hi hc' hlt => ih i hlt hi hc']

theorem Ordered.eq_of_solves (h : t.Ordered known) (ha : t.Solves row a) :
    a = .ofList (t.values row) := by
  refine NameMap.eq_of_get? fun id => ?_
  rw [get?_ofList_values]
  split_ifs with hid
  · obtain ⟨c, hmem, rfl⟩ := hid
    obtain ⟨hcolumn, hc⟩ := List.mem_filter.1 hmem
    obtain ⟨place, hplace⟩ := List.mem_iff_getElem?.1 hcolumn
    exact h.get?_of_solves ha hplace hc
  · exact Option.not_isSome_iff_eq_none.1 fun hsome => hid ((ha.ids id).1 hsome)

/-! ### The order of declaration -/

theorem given_of_perm {columns : List Column} (h : columns.Perm t.columns) :
    Template.given { t with columns := columns } row = t.given row := by
  funext name
  have hiff : (∃ c ∈ columns, c.isData = true ∧ c.id = name) ↔
      ∃ c ∈ t.columns, c.isData = true ∧ c.id = name := by
    simp only [h.mem_iff]
  simp only [given, hiff]

/-- The equations do not depend on the order of the columns. -/
theorem solves_of_perm {columns : List Column} (h : columns.Perm t.columns)
    (ha : t.Solves row a) : Template.Solves { t with columns := columns } row a := by
  have hmem : ∀ c, c ∈ Template.computed { t with columns := columns } ↔ c ∈ t.computed :=
    fun c => (h.filter _).mem_iff
  refine ⟨fun id => ?_, fun c hc => ?_⟩
  · simp only [hmem]
    exact ha.ids id
  · rw [ha.value c ((hmem c).1 hc)]
    refine congrArg some (valueIn_congr fun _ _ name _ => ?_)
    rw [read_scopeWith, read_scopeWith, given_of_perm h]

/-- **The calculated values are the one solution of the equations of all columns.** So the order in
which the columns are declared does not matter, as long as no formula names its own column or a
computed column further on. -/
theorem solves_iff_eq_values (h : t.Ordered known) (row : Row) :
    (∀ a, t.Solves row a ↔ a = .ofList (t.values row)) ∧
    ∀ columns known', columns.Perm t.columns →
      Template.Ordered { t with columns := columns } known' →
      ∀ p, p ∈ Template.values { t with columns := columns } row ↔ p ∈ t.values row := by
  refine ⟨fun a => ⟨h.eq_of_solves, ?_⟩, fun columns known' hperm h' p => ?_⟩
  · rintro rfl
    exact h.solves_values row
  · have hsame := h'.eq_of_solves (solves_of_perm hperm (h.solves_values row))
    rw [mem_values_iff, mem_values_iff, hsame]

/-- A total of two amounts, declared behind the data column and in front of it; `korting` is no
column and no system variable. -/
theorem solves_iff_eq_values_total :
    let km : Column := ⟨"km", .data, none⟩
    let bedrag : Column := ⟨"bedrag", .computed, some "=km*tarief"⟩
    let toeslag : Column := ⟨"toeslag", .computed, some "=SQRT(tarief-1)+2"⟩
    let totaal : Column := ⟨"totaal", .computed, some "=bedrag+toeslag-korting"⟩
    let t : Template := {
      columns := [km, bedrag, toeslag, totaal]
      systemVariables := .ofList [("tarief", 0.5)] }
    let t' : Template := { t with columns := [toeslag, bedrag, totaal, km] }
    let row := Row.empty.insert "km" (.number 100)
    t.Ordered ["tarief"] ∧ t'.Ordered [] ∧
    t.values row = [("bedrag", 50), ("toeslag", 0), ("totaal", 50)] ∧
    t'.values row = [("toeslag", 0), ("bedrag", 50), ("totaal", 50)] ∧
    (∀ a, t.Solves row a ↔ a = .ofList (t.values row)) ∧
    ∀ p, p ∈ t'.values row ↔ p ∈ t.values row := by
  intro km bedrag toeslag totaal t t' row
  have h : t.Ordered ["tarief"] := ⟨by decide, by decide +kernel⟩
  have h' : t'.Ordered [] := ⟨by decide, by decide +kernel⟩
  have hperm : t'.columns.Perm t.columns := by decide
  obtain ⟨hsolves, hvalues⟩ := solves_iff_eq_values h row
  exact ⟨h, h', by decide +kernel, by decide +kernel, hsolves, hvalues _ _ hperm h'⟩

end Template
end SheetTemplate
