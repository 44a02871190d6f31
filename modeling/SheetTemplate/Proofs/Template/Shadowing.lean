import SheetTemplate.Proofs.Template.Placement
import SheetTemplate.Proofs.Template.Scope

/-!
# Repeated ids

Where several columns share an id, a worksheet formula refers to the cell of the first of them. The
scope in front of a column holds one value for the id: that of its last computed column so far, and
that of the data columns as long as none is computed (`Source`). So a name stands for the same
column on both sides exactly where no computed column of this id stands between its first
declaration and the formula (`exported_first_read_last`); elsewhere the two sides drift apart, and
`ReadsFirst` fails.

A source is found by going through the places in turn (`exists_source`): every column either takes
the name over or leaves its source as it was.
-/

namespace SheetTemplate.Template

/-- The column at place `i` is where a name in front of a place of the template is read from: the
last computed column of this id so far, or the first column of this id if none is computed. -/
structure Source (columns : List Column) (place : Nat) (name : String) (i : Nat) (c : Column) :
    Prop where
  declared : columns[i]? = some c
  id_eq : c.id = name
  lt : i < place
  kind : c.isComputed = true ∨ declaration? columns name = some (c, i)
  last : ∀ j c', columns[j]? = some c' → c'.isComputed = true → c'.id = name → j < place → j ≤ i

/-- The value of the column at place `i`: what is read from the row, or what its formula comes to in
front of it. -/
def ownValue (t : Template) (row : Row) (i : Nat) (c : Column) : Float :=
  if c.isData then t.options.fieldMap.resolve c.id row
  else Reason.orZero (t.resultAfter row (t.computedBefore i).reverse c)

/-- Every name of an earlier column, in a formula that is evaluated, is bound to the value of the
first column of this id, in whose cell a worksheet formula finds it. -/
def ReadsFirst (t : Template) (row : Row) : Prop :=
  ∀ place c e name d first, t.columns[place]? = some c → c.isComputed = true →
    c.plan t.options.limits = .evaluate e → name ∈ e.identifiers →
    declaration? t.columns name = some (d, first) → first < place →
    (t.scopeAt row place).get? name = some (t.ownValue row first d) ∧
      ∀ r, (Column.Index.ofColumns t.columns).cell? name r = some (.relative (first + 1) r)

variable {columns : List Column} {t : Template} {row : Row} {place first : Nat} {name : String}
  {d : Column}

/-! ### Sources -/

/-- A computed column of the id takes the name over. -/
theorem source_self {c : Column} (hplace : columns[place]? = some c) (hc : c.isComputed = true) :
    Source columns (place + 1) c.id place c where
  declared := hplace
  id_eq := rfl
  lt := Nat.lt_succ_self _
  kind := .inl hc
  last := fun _ _ _ _ _ hlt => Nat.le_of_lt_succ hlt

/-- Any other column leaves the source of a name as it was. -/
theorem Source.succ {i : Nat} {c : Column} (h : Source columns place name i c)
    (hother : ∀ c', columns[place]? = some c' → c'.isComputed = true → c'.id ≠ name) :
    Source columns (place + 1) name i c where
  declared := h.declared
  id_eq := h.id_eq
  lt := Nat.lt_succ_of_lt h.lt
  kind := h.kind
  last := by
    intro j c' hj hc' hid hlt
    rcases Nat.lt_succ_iff_lt_or_eq.1 hlt with hlt | rfl
    · exact h.last j c' hj hc' hid hlt
    · exact absurd hid (hother c' hj hc')

/-- A name of a column in front of a place has a source there. -/
theorem exists_source (hdecl : declaration? columns name = some (d, first)) (hlt : first < place) :
    ∃ i c, Source columns place name i c := by
  obtain ⟨hfirst, hid⟩ := declaration?_eq_some hdecl
  induction place with
  | zero => exact absurd hlt (Nat.not_lt_zero _)
  | succ place ih =>
    by_cases htake : ∃ c, columns[place]? = some c ∧ c.isComputed = true ∧ c.id = name
    · obtain ⟨c, hplace, hc, rfl⟩ := htake
      exact ⟨place, c, source_self hplace hc⟩
    · push Not at htake
      rcases Nat.lt_succ_iff_lt_or_eq.1 hlt with hlt | rfl
      · obtain ⟨i, c, h⟩ := ih hlt
        exact ⟨i, c, h.succ htake⟩
      · -- the first column of the id is the last one too
        refine ⟨first, d, hfirst, hid, hlt, .inr hdecl, ?_⟩
        exact fun _ _ _ _ _ hj => Nat.le_of_lt_succ hj

/-- A name has one source. -/
theorem Source.unique {i i' : Nat} {c c' : Column} (h : Source columns place name i c)
    (h' : Source columns place name i' c') : i = i' ∧ c = c' := by
  have hle : ∀ {i i' c c'}, Source columns place name i c → Source columns place name i' c' →
      i ≤ i' := by
    intro i i' c c' h h'
    rcases h.kind with hc | hdecl
    · exact h'.last i c h.declared hc h.id_eq h.lt
    · exact declaration?_le hdecl h'.declared h'.id_eq
  obtain rfl := Nat.le_antisymm (hle h h') (hle h' h)
  exact ⟨rfl, Option.some.inj (h.declared.symm.trans h'.declared)⟩

/-- The source of a name is its first column iff no computed column takes the name over. -/
theorem Source.eq_first_iff {i : Nat} {c : Column} (h : Source columns place name i c)
    (hdecl : declaration? columns name = some (d, first)) :
    i = first ↔ ∀ j c', columns[j]? = some c' → first < j → j < place → c'.isComputed = true →
      c'.id ≠ name := by
  constructor
  · rintro rfl j c' hj hfirst hlt hc' hid
    exact absurd (h.last j c' hj hc' hid hlt) (Nat.not_le_of_lt hfirst)
  · intro hnone
    rcases h.kind with hc | hdecl'
    · by_contra hne
      have hle := declaration?_le hdecl h.declared h.id_eq
      exact hnone i c h.declared (Nat.lt_of_le_of_ne hle (Ne.symm hne)) h.lt hc h.id_eq
    · exact congrArg Prod.snd (Option.some.inj (hdecl'.symm.trans hdecl))

/-! ### The value of a source -/

/-- A data column is a source only where no computed column has its id. -/
theorem Source.forall_ne {i : Nat} {c : Column} (h : Source t.columns place name i c)
    (hdata : c.isData = true) : ∀ c' ∈ t.computedBefore place, c'.id ≠ name := by
  intro c' hc' hid
  obtain ⟨j, hj, hlt, hcomputed⟩ := mem_computedBefore.1 hc'
  have hdecl : declaration? t.columns name = some (c, i) :=
    h.kind.resolve_left (Column.not_isComputed_iff.2 hdata)
  obtain rfl : j = i := Nat.le_antisymm (h.last j c' hj hcomputed hid hlt)
    (declaration?_le hdecl hj hid)
  obtain rfl := Option.some.inj (hj.symm.trans h.declared)
  exact Column.not_isComputed_iff.2 hdata hcomputed

/-- A name stands for the value of its source. -/
theorem Source.reading_eq {i : Nat} {c : Column} (h : Source t.columns place name i c) :
    t.reading row (t.computedBefore place).reverse name = t.ownValue row i c := by
  obtain rfl := h.id_eq
  by_cases hdata : c.isData = true
  · have hne : ∀ c' ∈ (t.computedBefore place).reverse, c'.id ≠ c.id :=
      fun c' hc' => h.forall_ne hdata c' (List.mem_reverse.1 hc')
    rw [reading_of_forall_ne hne, given, if_pos ⟨c, List.mem_of_getElem? h.declared, hdata, rfl⟩,
      ownValue, if_pos hdata]
  · have hc : c.isComputed = true := Column.not_isData_iff.1 hdata
    have hafter : ∀ c' ∈ ((t.columns.take place).drop (i + 1)).filter Column.isComputed,
        c'.id ≠ c.id := by
      intro c' hc' hid
      obtain ⟨hmem, hcomputed⟩ := List.mem_filter.1 hc'
      obtain ⟨k, hk⟩ := List.mem_iff_getElem?.1 hmem
      rw [List.getElem?_drop, List.getElem?_take] at hk
      split_ifs at hk with hlt
      have hle := h.last _ c' hk hcomputed hid hlt
      omega
    rw [computedBefore_split h.declared hc h.lt, reading_of_split hafter, ownValue, if_neg hdata]

/-- A name is bound to the value of its source. -/
theorem Source.get?_scopeAt {i : Nat} {c : Column} (h : Source t.columns place name i c) :
    (t.scopeAt row place).get? name = some (t.ownValue row i c) := by
  have hbound : (t.scopeAt row place).get? name ≠ none := by
    intro hnone
    obtain ⟨hcomputed, hdata, -⟩ := get?_scopeAt_eq_none_iff.1 hnone
    by_cases hc : c.isComputed = true
    · exact hcomputed i c h.declared hc h.lt h.id_eq
    · exact hdata c (List.mem_of_getElem? h.declared) (Column.not_isComputed_iff.1 hc) h.id_eq
  rw [Template.get?_scopeAt hbound, h.reading_eq]

/-! ### Preview and export -/

/-- **A formula is exported with the first column of an id and calculated with its last computed
one.** In front of a column, the name of an earlier column is bound to the value of its source, and
exported as the cell of its first declaration; these are the same column iff no computed column in
between has this id. -/
theorem exported_first_read_last (row : Row)
    (hdecl : declaration? t.columns name = some (d, first)) (hlt : first < place) :
    (∃ i c, (∀ i' c', Source t.columns place name i' c' ↔ i' = i ∧ c' = c) ∧
      (t.scopeAt row place).get? name = some (t.ownValue row i c) ∧
      (i = first ↔ ∀ j c', t.columns[j]? = some c' → first < j → j < place →
        c'.isComputed = true → c'.id ≠ name)) ∧
    ∀ r refs, Formula.Placement.reference ⟨.ofColumns t.columns, r, refs⟩ name =
      (Cell.Reference.relative (first + 1) r).text := by
  refine ⟨?_, fun r refs => ?_⟩
  · obtain ⟨i, c, h⟩ := exists_source hdecl hlt
    refine ⟨i, c, fun i' c' => ⟨fun h' => h'.unique h, ?_⟩, h.get?_scopeAt, h.eq_first_iff hdecl⟩
    rintro ⟨rfl, rfl⟩
    exact h
  · rw [Formula.Placement.reference_ofColumns, hdecl]

/-- Two columns `a` in front of a formula that names them. -/
theorem exported_first_read_last_twice :
    let first : Column := ⟨"a", .computed, some "=1"⟩
    let t : Template := { columns := [first, ⟨"a", .computed, some "=2"⟩,
      ⟨"b", .computed, some "=a"⟩] }
    declaration? t.columns "a" = some (first, 0) ∧ 0 < 2 ∧
    (t.scopeAt .empty 2).get? "a" = some 2 ∧
    (∃ i c, (∀ i' c', Source t.columns 2 "a" i' c' ↔ i' = i ∧ c' = c) ∧
      (t.scopeAt .empty 2).get? "a" = some (t.ownValue .empty i c) ∧
      (i = 0 ↔ ∀ j c', t.columns[j]? = some c' → 0 < j → j < 2 → c'.isComputed = true →
        c'.id ≠ "a")) ∧
    ∀ r refs, Formula.Placement.reference ⟨.ofColumns t.columns, r, refs⟩ "a" =
      (Cell.Reference.relative 1 r).text := by
  intro first t
  have hdecl : declaration? t.columns "a" = some (first, 0) := by decide
  exact ⟨hdecl, by decide, by decide +kernel, exported_first_read_last .empty hdecl (by decide)⟩

/-- A calculation does not read the first of two columns. -/
theorem not_readsFirst_twice :
    ¬ ReadsFirst { columns := [⟨"a", .computed, some "=1"⟩, ⟨"a", .computed, some "=2"⟩,
      ⟨"b", .computed, some "=a"⟩] } .empty := by
  intro h
  have hread := (h 2 ⟨"b", .computed, some "=a"⟩ (.identifier "a") "a" ⟨"a", .computed, some "=1"⟩ 0
    rfl rfl rfl (by decide) (by decide) (by decide)).1
  revert hread
  decide +kernel

end SheetTemplate.Template
