import SheetTemplate.Template.Check
import Mathlib.Data.List.Nodup
import Mathlib.Tactic.SplitIfs

/-!
# Templates without problems

Where nothing is wrong with a template, every id has one place, every computed column has a formula
that is read, and every name in it stands for a column that is computed before its own, for a data
column or for a system variable (`sound_of_check`).
-/

namespace SheetTemplate

theorem Column.not_isComputed_iff {c : Column} : ¬ c.isComputed = true ↔ c.isData = true := by
  unfold isComputed isData
  cases c.kind <;> simp

theorem Column.not_isData_iff {c : Column} : ¬ c.isData = true ↔ c.isComputed = true := by
  rw [← not_isComputed_iff, not_not]

namespace Template

variable {columns : List Column} {known : List String} {l : Formula.Limits}

/-! ### Declarations -/

theorem declaration?_eq_some {id : String} {c : Column} {place : Nat}
    (h : declaration? columns id = some (c, place)) : columns[place]? = some c ∧ c.id = id := by
  refine ⟨List.mem_zipIdx_iff_getElem?.1 (List.mem_of_find?_eq_some h), ?_⟩
  simpa using List.find?_some h

theorem declaration?_eq_none {id : String} (h : declaration? columns id = none) :
    ∀ c ∈ columns, c.id ≠ id := by
  intro c hc
  obtain ⟨place, hplace⟩ := List.mem_iff_getElem?.1 hc
  simpa using List.find?_eq_none.1 h (c, place) (List.mem_zipIdx_iff_getElem?.2 hplace)

theorem declaration?_eq_none_iff {id : String} :
    declaration? columns id = none ↔ ∀ c ∈ columns, c.id ≠ id := by
  refine ⟨declaration?_eq_none, fun h => List.find?_eq_none.2 fun p hp => ?_⟩
  simpa using h p.1 (List.mem_of_getElem? (List.mem_zipIdx_iff_getElem?.1 hp))

/-- No column of an id stands in front of its first declaration. -/
theorem declaration?_le {id : String} {c c' : Column} {place first : Nat}
    (h : declaration? columns id = some (c', first)) (hplace : columns[place]? = some c)
    (hid : c.id = id) : first ≤ place := by
  obtain ⟨-, i, hi, hget, hearlier⟩ := List.find?_eq_some_iff_getElem.1 h
  rw [List.getElem_zipIdx, Nat.zero_add] at hget
  obtain rfl : i = first := (Prod.mk.inj hget).2
  refine Nat.le_of_not_lt fun hlt => ?_
  have hnot := hearlier place hlt
  obtain ⟨hlen, rfl⟩ := List.getElem?_eq_some_iff.1 hplace
  simp [hid] at hnot

/-- Where no id is repeated, a column is found by its place. -/
theorem place_unique (hids : (columns.map Column.id).Nodup) {c c' : Column} {place place' : Nat}
    (h : columns[place]? = some c) (h' : columns[place']? = some c') (hid : c.id = c'.id) :
    place = place' := by
  have hplace : (columns.map Column.id)[place]? = some c.id := by rw [List.getElem?_map, h]; rfl
  have hplace' : (columns.map Column.id)[place']? = some c'.id := by
    rw [List.getElem?_map, h']
    rfl
  obtain ⟨hlt, -⟩ := List.getElem?_eq_some_iff.1 hplace
  exact (List.getElem?_inj hlt hids).1 (hplace.trans (hid ▸ hplace'.symm))

/-- Where no id is repeated, every column is the first one of its id. -/
theorem declaration?_of_place (hids : (columns.map Column.id).Nodup) {place : Nat} {c : Column}
    (h : columns[place]? = some c) : declaration? columns c.id = some (c, place) := by
  cases hdecl : declaration? columns c.id with
  | none => exact absurd rfl (declaration?_eq_none hdecl c (List.mem_of_getElem? h))
  | some p =>
    obtain ⟨c', first⟩ := p
    obtain ⟨hfirst, hid⟩ := declaration?_eq_some hdecl
    obtain rfl := place_unique hids hfirst h hid
    rw [hfirst] at h
    rw [Option.some.inj h]

/-! ### Repeated ids -/

theorem nodup_of_duplicates {seen : List String} (h : duplicates seen columns = []) :
    (columns.map Column.id).Nodup ∧ ∀ c ∈ columns, c.id ∉ seen := by
  induction columns generalizing seen with
  | nil => simp
  | cons c cs ih =>
    rw [duplicates] at h
    split_ifs at h with hc
    obtain ⟨hnodup, hseen⟩ := ih h
    rw [List.contains_iff_mem] at hc
    refine ⟨?_, fun c' hc' => ?_⟩
    · rw [List.map_cons, List.nodup_cons]
      refine ⟨fun hmem => ?_, hnodup⟩
      obtain ⟨c', hc', hid⟩ := List.mem_map.1 hmem
      exact hseen c' hc' (hid ▸ List.mem_cons_self)
    · rcases List.mem_cons.1 hc' with rfl | hc'
      · exact hc
      · exact fun hmem => hseen c' hc' (List.mem_cons_of_mem _ hmem)

/-! ### Names in formulas -/

/-- What a name in the formula of the column `id` at a place of the template stands for where there
is no problem with it. -/
inductive Resolves (columns : List Column) (known : List String) (place : Nat) (name : String) :
    Prop
  | earlier {c : Column} {first : Nat} : declaration? columns name = some (c, first) →
      c.isComputed = true → first ≤ place → Resolves columns known place name
  | data {c : Column} {first : Nat} : declaration? columns name = some (c, first) →
      c.isData = true → Resolves columns known place name
  | system : declaration? columns name = none → name ∈ known → Resolves columns known place name

/-- The problem of a name goes by where the name is declared: for its own column, for a computed
column behind it, nowhere, or where it can be used. -/
theorem resolves_or_nameIssue (columns : List Column) (known : List String) (id : String)
    (place : Nat) (name : String) :
    (name ≠ id ∧ nameIssue columns known id place name = none ∧
      Resolves columns known place name) ∨
    (name = id ∧ nameIssue columns known id place name = some (.selfReference id)) ∨
    (name ≠ id ∧ nameIssue columns known id place name = some (.forwardReference id name) ∧
      ∃ c first, declaration? columns name = some (c, first) ∧ c.isComputed = true ∧
        place < first) ∨
    (name ≠ id ∧ nameIssue columns known id place name = some (.unknownIdentifier id name) ∧
      declaration? columns name = none ∧ name ∉ known) := by
  rw [nameIssue]
  by_cases hid : name = id
  · rw [if_pos hid]
    exact .inr (.inl ⟨hid, rfl⟩)
  rw [if_neg hid]
  cases hdecl : declaration? columns name with
  | none =>
    by_cases hknown : name ∈ known
    · exact .inl ⟨hid, if_pos (List.contains_iff_mem.2 hknown), .system hdecl hknown⟩
    · refine .inr (.inr (.inr ⟨hid, if_neg fun h => hknown ?_, rfl, hknown⟩))
      exact List.contains_iff_mem.1 h
  | some p =>
    obtain ⟨c, first⟩ := p
    by_cases hc : c.isComputed = true
    · by_cases hlate : place < first
      · exact .inr (.inr (.inl ⟨hid, if_pos (by simp [hlate, hc]), c, first, rfl, hc, hlate⟩))
      · exact .inl ⟨hid, if_neg (by simp [hlate]), .earlier hdecl hc (Nat.le_of_not_lt hlate)⟩
    · exact .inl ⟨hid, if_neg (by simp [hc]), .data hdecl (Column.not_isComputed_iff.1 hc)⟩

theorem resolves_of_nameIssue {id name : String} {place : Nat}
    (h : nameIssue columns known id place name = none) :
    name ≠ id ∧ Resolves columns known place name := by
  rcases resolves_or_nameIssue columns known id place name with
    ⟨hid, -, hres⟩ | ⟨-, hsome⟩ | ⟨-, hsome, -⟩ | ⟨-, hsome, -⟩
  · exact ⟨hid, hres⟩
  all_goals
    rw [h] at hsome
    cases hsome

/-! ### A template without problems -/

/-- Every id has one place, and the formulas are read and use what they may use. -/
structure Sound (l : Formula.Limits) (columns : List Column) (known : List String) : Prop where
  nodup : (columns.map Column.id).Nodup
  formula : ∀ {place c}, columns[place]? = some c → c.isComputed = true →
    ∃ formula e, c.formula = some formula ∧ Formula.parse l formula = .ok e ∧
      ∀ name ∈ e.identifiers, name ≠ c.id ∧ Resolves columns known place name

theorem sound_of_check (h : check l columns known = []) : Sound l columns known := by
  obtain ⟨hdup, hcolumns⟩ := List.append_eq_nil_iff.1 h
  refine ⟨(nodup_of_duplicates hdup).1, fun {place c} hplace hc => ?_⟩
  have hissues : columnIssues l columns known c place = [] :=
    List.flatMap_eq_nil_iff.1 hcolumns (c, place) (List.mem_zipIdx_iff_getElem?.2 hplace)
  unfold columnIssues at hissues
  rw [if_pos hc] at hissues
  split at hissues
  · cases hissues
  · rename_i formula hformula
    split_ifs at hissues
    split at hissues
    · cases hissues
    · rename_i e hparse
      refine ⟨formula, e, hformula, hparse, fun name hname => ?_⟩
      exact resolves_of_nameIssue (List.filterMap_eq_nil_iff.1 hissues name hname)

end Template

end SheetTemplate
