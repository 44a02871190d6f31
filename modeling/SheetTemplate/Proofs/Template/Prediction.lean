import SheetTemplate.Proofs.Template.Issues
import SheetTemplate.Proofs.Template.Scope

/-!
# What a check predicts

A check reads a template without a row, and a calculation sets values to 0 without looking for their
cause. Both agree on every row: a calculation counts as many unreadable formulas and as many self
references as the check lists, and a name that is free when its column is computed is listed as a
forward reference or as unknown (`check_predicts_calculation`). The check finds names by their first
declaration, the calculation by a scope that grows. So repeated ids, and variables that a column
hides later on, can make the check list a name that is bound; without these, every listed name is
free.
-/

namespace SheetTemplate.Template

variable {columns : List Column} {known : List String} {l : Formula.Limits} {t : Template}
  {row : Row}

/-! ### How many columns are set to 0 -/

/-- What the stats of one column say about its tree. -/
theorem statsOf_plan (l : Formula.Limits) (c : Column) (x : Float) :
    (Calculation.statsOf (c.plan l) x).invalid = (if (c.tree? l).isNone then 1 else 0) ∧
      (Calculation.statsOf (c.plan l) x).selfReferences =
        (if (c.tree? l).any fun e => e.references c.id then 1 else 0) := by
  rw [Column.plan_eq]
  cases c.tree? l with
  | none => exact ⟨rfl, rfl⟩
  | some e => by_cases href : e.references c.id = true <;> simp [href, Calculation.statsOf]

/-- A calculation counts the columns without a tree, and those whose trees refer to them. -/
theorem stats_calculateUpTo (t : Template) (row : Row) (cs : List Column) :
    (t.calculateUpTo row cs).stats.invalid =
        cs.countP (fun c => (c.tree? t.options.limits).isNone) ∧
      (t.calculateUpTo row cs).stats.selfReferences =
        cs.countP fun c => (c.tree? t.options.limits).any fun e => e.references c.id := by
  induction cs using List.reverseRecOn with
  | nil => exact ⟨rfl, rfl⟩
  | append_singleton cs c ih =>
    rw [List.countP_append, List.countP_append, ← ih.1, ← ih.2, List.countP_singleton,
      List.countP_singleton, calculateUpTo, List.foldl_append]
    exact ⟨congrArg _ (statsOf_plan _ c _).1, congrArg _ (statsOf_plan _ c _).2⟩

/-! ### How many problems are listed -/

theorem countP_missing_add_invalid (is : List Issue) :
    is.countP Issue.isMissingFormula + is.countP Issue.isInvalidFormula =
      is.countP fun i => i.isMissingFormula || i.isInvalidFormula := by
  induction is with
  | nil => rfl
  | cons i is ih =>
    simp only [List.countP_cons, ← ih]
    cases i <;> simp [Issue.isMissingFormula, Issue.isInvalidFormula] <;> omega

/-- The problems of some names hold a self reference for each time that the own id is named. -/
theorem countP_selfReference (names : List String) (id : String) (place : Nat) :
    (names.filterMap (nameIssue columns known id place)).countP Issue.isSelfReference =
      names.count id := by
  induction names with
  | nil => rfl
  | cons name names ih =>
    by_cases hid : name = id
    · subst hid
      rw [List.filterMap_cons_some (nameIssue_self name place), List.count_cons_self, ← ih,
        List.countP_cons_of_pos rfl]
    · rw [List.count_cons_of_ne hid, ← ih]
      cases hissue : nameIssue columns known id place name with
      | none => rw [List.filterMap_cons_none hissue]
      | some i =>
        rw [List.filterMap_cons_some hissue]
        rcases nameIssue_cases hissue with ⟨h, -⟩ | ⟨-, rfl, -⟩ | ⟨-, rfl, -⟩
        · exact absurd h hid
        · rfl
        · rfl

theorem countP_unreadable_filterMap (names : List String) (id : String) (place : Nat) :
    (names.filterMap (nameIssue columns known id place)).countP
      (fun i => i.isMissingFormula || i.isInvalidFormula) = 0 := by
  refine List.countP_eq_zero.2 fun i hi => ?_
  obtain ⟨name, -, hissue⟩ := List.mem_filterMap.1 hi
  rcases nameIssue_cases hissue with ⟨-, rfl⟩ | ⟨-, rfl, -⟩ | ⟨-, rfl, -⟩ <;>
    exact Bool.false_ne_true

/-- The problems of one column say whether it has a tree and whether its tree refers to it. -/
theorem countP_columnIssues (c : Column) (place : Nat) :
    ((columnIssues l columns known c place).countP
        (fun i => i.isMissingFormula || i.isInvalidFormula) =
      if (c.tree? l).isNone && c.isComputed then 1 else 0) ∧
    (columnIssues l columns known c place).countP Issue.isSelfReference =
      if ((c.tree? l).any fun e => e.references c.id) && c.isComputed then 1 else 0 := by
  by_cases hc : c.isComputed = true
  · cases htree : c.tree? l with
    | none =>
      have hissues := @columnIssues_of_tree?_eq_none columns known l c hc htree place
      rcases hissues with heq | ⟨e, heq⟩ <;> rw [heq, hc] <;> exact ⟨rfl, rfl⟩
    | some e =>
      rw [columnIssues_of_tree?_eq_some hc htree place, countP_unreadable_filterMap,
        countP_selfReference, Formula.Expr.identifiers, (nodup_eraseDups e.names).count, hc]
      refine ⟨rfl, ?_⟩
      by_cases href : c.id ∈ e.names <;>
        simp [Formula.Expr.references, Formula.Expr.identifiers, href]
  · rw [columnIssues_of_data (by simpa using hc)]
    simp [hc]

theorem countP_flatMap_zipIdx {f : Column → Nat → List Issue} {p : Issue → Bool}
    {q : Column → Bool} (h : ∀ c place, (f c place).countP p = if q c then 1 else 0)
    (cs : List Column) (first : Nat) :
    ((cs.zipIdx first).flatMap fun x => f x.1 x.2).countP p = cs.countP q := by
  induction cs generalizing first with
  | nil => rfl
  | cons c cs ih =>
    rw [List.zipIdx_cons, List.flatMap_cons, List.countP_append, h, ih, List.countP_cons,
      Nat.add_comm]

/-- Problems other than repeated ids are counted by the computed columns that have one. -/
theorem countP_check {p : Issue → Bool} {q : Column → Bool}
    (hdup : ∀ id, p (.duplicateColumn id) = false)
    (h : ∀ c place, (columnIssues l columns known c place).countP p =
      if q c && c.isComputed then 1 else 0) :
    (check l columns known).countP p = (columns.filter Column.isComputed).countP q := by
  have hduplicates : (duplicates [] columns).countP p = 0 := by
    refine List.countP_eq_zero.2 fun i hi => ?_
    obtain ⟨id, rfl⟩ := mem_duplicates hi
    rw [hdup]
    decide
  rw [check, List.countP_append, hduplicates, Nat.zero_add, countP_flatMap_zipIdx h,
    List.countP_filter]

/-! ### Free names -/

/-- A free name in a formula that is evaluated is a problem of the column. -/
theorem mem_columnIssues_of_free {place : Nat} {c : Column} {e : Formula.Expr} {name : String}
    (hplace : t.columns[place]? = some c) (hc : c.isComputed = true)
    (hplan : c.plan t.options.limits = .evaluate e) (hname : name ∈ e.identifiers)
    (hfree : (t.scopeAt row place).get? name = none) :
    .forwardReference c.id name ∈ columnIssues t.options.limits t.columns
        t.systemVariables.names c place ∨
      .unknownIdentifier c.id name ∈ columnIssues t.options.limits t.columns
        t.systemVariables.names c place := by
  obtain ⟨hcomputed, hdata, hvariable⟩ := get?_scopeAt_eq_none_iff.1 hfree
  obtain ⟨htree, hself⟩ := Column.plan_eq_evaluate_iff.1 hplan
  have hne : name ≠ c.id := fun heq => hself (heq ▸ hname)
  rw [columnIssues_of_tree?_eq_some hc htree place]
  cases hdecl : declaration? t.columns name with
  | none =>
    have hknown : name ∉ t.systemVariables.names := by
      simp [NameMap.mem_names_iff, NameMap.contains, hvariable]
    exact .inr (List.mem_filterMap.2 ⟨name, hname, nameIssue_of_unknown hne hdecl hknown⟩)
  | some p =>
    obtain ⟨c', first⟩ := p
    obtain ⟨hfirst, hid⟩ := declaration?_eq_some hdecl
    -- the declaration is computed, neither in front of the place nor at it
    have hc' : c'.isComputed = true :=
      Column.not_isData_iff.1 fun h => hdata c' (List.mem_of_getElem? hfirst) h hid
    have hge : place ≤ first := Nat.le_of_not_lt fun h => hcomputed first c' hfirst hc' h hid
    have hplace' : place ≠ first := by
      rintro rfl
      rw [hplace] at hfirst
      exact hne (Option.some.inj hfirst ▸ hid.symm)
    exact .inl (List.mem_filterMap.2 ⟨name, hname,
      nameIssue_of_later hne hdecl hc' (Nat.lt_of_le_of_ne hge hplace')⟩)

/-- A name that is listed as a forward reference or as unknown is free, where no id is repeated and
none is that of a system variable. -/
theorem free_of_nameIssue (hids : (t.columns.map Column.id).Nodup)
    (hapart : ∀ c ∈ t.columns, t.systemVariables.get? c.id = none) {place : Nat} {id : String}
    {name : String} {i : Issue} (hself : i.isSelfReference = false)
    (h : nameIssue t.columns t.systemVariables.names id place name = some i) :
    (t.scopeAt row place).get? name = none := by
  rw [get?_scopeAt_eq_none_iff]
  rcases nameIssue_cases h with ⟨-, rfl⟩ | ⟨-, -, c, first, hdecl, hc, hlt⟩ | ⟨-, -, hdecl, hknown⟩
  · cases hself
  · obtain ⟨hfirst, rfl⟩ := declaration?_eq_some hdecl
    refine ⟨fun i c' hi _ hlt' hid => ?_, fun c' hc' hdata hid => ?_,
      hapart c (List.mem_of_getElem? hfirst)⟩
    · have := place_unique hids hi hfirst hid
      omega
    · have heq := List.inj_on_of_nodup_map hids hc' (List.mem_of_getElem? hfirst) hid
      exact Column.not_isComputed_iff.2 (heq ▸ hdata) hc
  · have hnone := declaration?_eq_none hdecl
    refine ⟨fun _ c hc _ _ => hnone c (List.mem_of_getElem? hc), fun c hc _ => hnone c hc, ?_⟩
    rw [NameMap.mem_names_iff, NameMap.contains, Bool.not_eq_true, Option.isSome_eq_false_iff,
      Option.isNone_iff_eq_none] at hknown
    exact hknown

/-! ### The prediction -/

/-- **A check predicts what a calculation sets to 0.** On every row there are as many unreadable
formulas and self references as the check lists; a name that is free in front of its column, and so
reads 0, is listed for this column; and without repeated ids and hidden variables, every name that
is listed as a forward reference or as unknown is free in front of its column. -/
theorem check_predicts_calculation (t : Template) (row : Row) :
    ((t.calculate row).stats.invalid =
        t.issues.countP Issue.isMissingFormula + t.issues.countP Issue.isInvalidFormula ∧
      (t.calculate row).stats.selfReferences = t.issues.countP Issue.isSelfReference) ∧
    (∀ place c e, t.columns[place]? = some c → c.isComputed = true →
      c.plan t.options.limits = .evaluate e → ∀ name ∈ e.identifiers,
        (t.scopeAt row place).get? name = none →
          Formula.Scope.read (t.scopeAt row place) name = 0 ∧
          ∃ i ∈ columnIssues t.options.limits t.columns t.systemVariables.names c place,
            i ∈ t.issues ∧ (i = .forwardReference c.id name ∨ i = .unknownIdentifier c.id name)) ∧
    ((t.columns.map Column.id).Nodup → (∀ c ∈ t.columns, t.systemVariables.get? c.id = none) →
      ∀ id name, (.forwardReference id name ∈ t.issues ∨ .unknownIdentifier id name ∈ t.issues) →
        ∃ place c e, t.columns[place]? = some c ∧ c.id = id ∧ c.isComputed = true ∧
          c.tree? t.options.limits = some e ∧ name ∈ e.identifiers ∧
          (t.scopeAt row place).get? name = none) := by
  refine ⟨⟨?_, ?_⟩, ?_, ?_⟩
  · rw [countP_missing_add_invalid, issues,
      countP_check (fun _ => rfl) fun c place => (countP_columnIssues c place).1]
    exact (stats_calculateUpTo t row t.computed).1
  · rw [issues, countP_check (fun _ => rfl) fun c place => (countP_columnIssues c place).2]
    exact (stats_calculateUpTo t row t.computed).2
  · intro place c e hplace hc hplan name hname hfree
    refine ⟨by rw [Formula.Scope.read, hfree, Option.getD_none], ?_⟩
    rcases mem_columnIssues_of_free hplace hc hplan hname hfree with h | h
    · exact ⟨_, h, mem_check_of_mem_columnIssues hplace h, .inl rfl⟩
    · exact ⟨_, h, mem_check_of_mem_columnIssues hplace h, .inr rfl⟩
  · intro hids hapart id name hissue
    obtain ⟨i, hi, hself, hlisted⟩ : ∃ i ∈ t.issues, i.isSelfReference = false ∧
        (i = .forwardReference id name ∨ i = .unknownIdentifier id name) := by
      rcases hissue with h | h
      · exact ⟨_, h, rfl, .inl rfl⟩
      · exact ⟨_, h, rfl, .inr rfl⟩
    have hkind : i.isName = true := by rcases hlisted with rfl | rfl <;> rfl
    obtain ⟨place, c, e, name', hplace, hc, htree, hname, hfound⟩ :=
      exists_name_of_mem_check hi hkind
    have heq : c.id = id ∧ name' = name := by
      rcases nameIssue_cases hfound with ⟨-, rfl⟩ | ⟨-, rfl, -⟩ | ⟨-, rfl, -⟩
      · cases hself
      · simpa using hlisted
      · simpa using hlisted
    obtain ⟨rfl, rfl⟩ := heq
    exact ⟨place, c, e, hplace, rfl, hc, htree, hname, free_of_nameIssue hids hapart hself hfound⟩

end SheetTemplate.Template
