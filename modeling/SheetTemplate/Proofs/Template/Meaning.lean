import SheetTemplate.Proofs.NameMap
import SheetTemplate.Document.Model
import Mathlib.Data.List.Induction

/-!
# What the computed columns mean

A calculation keeps one scope and one list of values, and overwrites both as it goes. Here the value
of a computed column is said without them: it is the value of its formula, where a name stands for
the last computed column of that id in front of it, else for a data column, else for a system
variable, else for 0; it is 0 where the formula is missing, malformed, refers to its own column or
has no finite value.

`Meets` says what the state of a calculation holds after some columns; one column preserves it
(`meets_step`), hence so do all of them (`meets_calculateUpTo`). From it `calculate_spec` reads off
the values, their order and the stats.
-/

namespace SheetTemplate

/-- Why the value of a computed column is set to 0. -/
inductive Reason
  | selfReference
  | unreadable
  | nonFinite
  deriving DecidableEq

/-- What a computed column comes to, where `value` gives the values of names. -/
def Column.result (l : Formula.Limits) (value : String → Float) (c : Column) :
    Except Reason Float :=
  match c.formula with
  | none => .error .unreadable
  | some formula =>
    match Formula.parse l formula with
    | .error _ => .error .unreadable
    | .ok e =>
      if c.id ∈ e.identifiers then .error .selfReference
      else if (e.eval value).isFinite then .ok (e.eval value)
      else .error .nonFinite

/-- The value of a result. -/
def Reason.orZero : Except Reason Float → Float
  | .ok x => x
  | .error _ => 0

namespace Template

/-- The computed columns in the order of their declaration. -/
def computed (t : Template) : List Column := t.columns.filter Column.isComputed

/-- What a name stands for in front of all computed columns. -/
def given (t : Template) (row : Row) (name : String) : Float :=
  if ∃ c ∈ t.columns, c.isData ∧ c.id = name then t.options.fieldMap.resolve name row
  else (t.systemVariables.get? name).getD 0

/-- What a name stands for after some computed columns, the last one first. -/
def reading (t : Template) (row : Row) : List Column → String → Float
  | [] => t.given row
  | c :: earlier => fun name =>
    if c.id = name then Reason.orZero (c.result t.options.limits (t.reading row earlier))
    else t.reading row earlier name

/-- What a column comes to after some computed columns, the last one first. -/
def resultAfter (t : Template) (row : Row) (earlier : List Column) (c : Column) :
    Except Reason Float :=
  c.result t.options.limits (t.reading row earlier)

/-- What some computed columns come to, the last one first. -/
def results (t : Template) (row : Row) : List Column → List (Except Reason Float)
  | [] => []
  | c :: earlier => t.resultAfter row earlier c :: t.results row earlier

/-- The state of a calculation after some of the computed columns. -/
def calculateUpTo (t : Template) (row : Row) (cs : List Column) : Calculation :=
  cs.foldl (Calculation.step t.options.limits) (Calculation.start t row)

variable {t : Template} {row : Row}

theorem reading_cons (c : Column) (earlier : List Column) (name : String) :
    t.reading row (c :: earlier) name =
      if c.id = name then Reason.orZero (t.resultAfter row earlier c)
      else t.reading row earlier name := rfl

/-- A name that no later column has still stands for what it stood for. -/
theorem reading_append {name : String} {later : List Column} (earlier : List Column)
    (h : ∀ c ∈ later, c.id ≠ name) :
    t.reading row (later ++ earlier) name = t.reading row earlier name := by
  induction later with
  | nil => rfl
  | cons c later ih =>
    rw [List.cons_append, reading_cons, if_neg (h c List.mem_cons_self)]
    exact ih fun c' hc' => h c' (List.mem_cons_of_mem _ hc')

/-- A name of no column in `cs` stands for what it stands for in front of them. -/
theorem reading_of_forall_ne {name : String} {cs : List Column} (h : ∀ c ∈ cs, c.id ≠ name) :
    t.reading row cs name = t.given row name := by
  have happend : t.reading row (cs ++ []) name = t.reading row [] name := reading_append [] h
  rwa [List.append_nil] at happend

/-! ### One column -/

theorem isFinite_zero : (0 : Float).isFinite = true := by decide

theorem isFinite_orZero {r : Except Reason Float} (h : ∀ x, r = .ok x → x.isFinite = true) :
    (Reason.orZero r).isFinite = true := by
  cases r with
  | error _ => exact isFinite_zero
  | ok x => exact h x rfl

theorem isFinite_of_result {l : Formula.Limits} {value : String → Float} {c : Column} {x : Float}
    (h : c.result l value = .ok x) : x.isFinite = true := by
  unfold Column.result at h
  split at h
  · cases h
  · split at h
    · cases h
    · split_ifs at h with _ hfin
      cases h
      exact hfin

/-- How a plan, its value and the stats of one column follow from its result. -/
theorem plan_spec (l : Formula.Limits) (s : Formula.Scope) (c : Column) :
    let raw := Calculation.rawValue s (c.plan l)
    (if raw.isFinite then raw else 0) = Reason.orZero (c.result l s.read) ∧
      Calculation.statsOf (c.plan l) raw =
        ⟨1, if c.result l s.read = .error .selfReference then 1 else 0,
          if c.result l s.read = .error .unreadable then 1 else 0,
          if c.result l s.read = .error .nonFinite then 1 else 0⟩ := by
  intro raw
  have hz : (0 : Float).isFinite = true := isFinite_zero
  cases hf : c.formula with
  | none => simp [raw, Column.plan, Column.result, hf, Calculation.rawValue,
      Calculation.statsOf, Reason.orZero, hz]
  | some formula =>
    cases hp : Formula.parse l formula with
    | error _ => simp [raw, Column.plan, Column.result, hf, hp, Calculation.rawValue,
        Calculation.statsOf, Reason.orZero, hz]
    | ok e =>
      by_cases href : c.id ∈ e.identifiers
      · simp [raw, Column.plan, Column.result, hf, hp, Formula.Expr.references, href,
          Calculation.rawValue, Calculation.statsOf, Reason.orZero, hz]
      · by_cases hfin : (e.eval s.read).isFinite <;>
          simp [raw, Column.plan, Column.result, hf, hp, Formula.Expr.references, href,
            Calculation.rawValue, Calculation.statsOf, Reason.orZero, hfin]

/-- The scope in front of all computed columns. -/
theorem read_start (t : Template) (row : Row) :
    Formula.Scope.read (Calculation.start t row).scope = t.given row := by
  funext name
  have hmap : ((t.columns.filter Column.isData).map fun c =>
      (c.id, t.options.fieldMap.resolve c.id row)) =
      ((t.columns.filter Column.isData).map Column.id).map
        fun id => (id, t.options.fieldMap.resolve id row) := by
    rw [List.map_map]
    rfl
  have hmem : name ∈ (t.columns.filter Column.isData).map Column.id ↔
      ∃ c ∈ t.columns, c.isData ∧ c.id = name := by
    simp [and_assoc]
  unfold Formula.Scope.read Calculation.start given
  rw [hmap, NameMap.get?_insertAll_map]
  by_cases h : ∃ c ∈ t.columns, c.isData ∧ c.id = name
  · rw [if_pos (hmem.2 h), if_pos h]
    rfl
  · rw [if_neg (mt hmem.1 h), if_neg h]

/-! ### The recorded values -/

theorem eraseDups_concat (ids : List String) (id : String) :
    (ids ++ [id]).eraseDups = if id ∈ ids then ids.eraseDups else ids.eraseDups ++ [id] := by
  rw [List.eraseDups_append]
  by_cases h : id ∈ ids <;> simp [List.removeAll, List.eraseDups_cons, h]

theorem nodup_eraseDups (ids : List String) : ids.eraseDups.Nodup := by
  induction ids using List.reverseRecOn with
  | nil => simp
  | append_singleton ids id ih =>
    rw [eraseDups_concat]
    split_ifs with h
    · exact ih
    · refine List.nodup_append.2 ⟨ih, by simp, ?_⟩
      rintro a ha b hb rfl
      rw [List.mem_singleton] at hb
      exact h (hb ▸ List.mem_eraseDups.1 ha)

/-- Recording a value replaces the value of its id, or puts it behind all others. -/
theorem record_map (id : String) (x : Float) (f : String → Float) {ids : List String}
    (h : ids.Nodup) :
    Calculation.record id x (ids.map fun i => (i, f i)) =
      (if id ∈ ids then ids else ids ++ [id]).map fun i => (i, if id = i then x else f i) := by
  induction ids with
  | nil => simp [Calculation.record]
  | cons i ids ih =>
    rw [List.nodup_cons] at h
    rw [List.map_cons, Calculation.record]
    by_cases hi : i = id
    · subst hi
      rw [if_pos rfl, if_pos List.mem_cons_self, List.map_cons, if_pos rfl]
      have hrest : ∀ j ∈ ids, (j, f j) = (j, if i = j then x else f j) := by
        intro j hj
        have hij : i ≠ j := fun hij => h.1 (hij ▸ hj)
        rw [if_neg hij]
      rw [List.map_congr_left hrest]
    · have hi' : ¬ id = i := fun h' => hi h'.symm
      rw [if_neg hi, ih h.2]
      by_cases hid : id ∈ ids <;> simp [hid, hi']

/-! ### The whole pass -/

/-- What a calculation holds after some computed columns, the last one first. -/
structure Meets (t : Template) (row : Row) (earlier : List Column) (s : Calculation) : Prop where
  read : Formula.Scope.read s.scope = t.reading row earlier
  values : s.values = (earlier.reverse.map Column.id).eraseDups.map
    fun id => (id, t.reading row earlier id)
  stats : s.stats = ⟨earlier.length, (t.results row earlier).count (.error .selfReference),
    (t.results row earlier).count (.error .unreadable),
    (t.results row earlier).count (.error .nonFinite)⟩

theorem meets_start (t : Template) (row : Row) : t.Meets row [] (Calculation.start t row) where
  read := read_start t row
  values := rfl
  stats := rfl

/-- The scope behind a column differs from the one in front of it in the id of the column. -/
theorem read_insert (s : Formula.Scope) (id : String) (x : Float) :
    Formula.Scope.read (s.insert id x) = fun name => if id = name then x else s.read name := by
  funext name
  by_cases h : id = name
  · simp [Formula.Scope.read, h]
  · simp [Formula.Scope.read, h, Ne.symm h]

theorem meets_step {earlier : List Column} {s : Calculation} (h : t.Meets row earlier s)
    (c : Column) :
    t.Meets row (c :: earlier) (Calculation.step t.options.limits s c) := by
  obtain ⟨hvalue, hstats⟩ := plan_spec t.options.limits s.scope c
  rw [h.read] at hvalue hstats
  constructor
  · show Formula.Scope.read (s.scope.insert c.id _) = _
    rw [hvalue, read_insert, h.read]
    rfl
  · show Calculation.record c.id _ s.values = _
    rw [hvalue, h.values, record_map _ _ _ (nodup_eraseDups _), List.reverse_cons, List.map_append,
      List.map_singleton, eraseDups_concat]
    simp only [List.mem_eraseDups]
    rfl
  · show s.stats.add (Calculation.statsOf _ _) = _
    rw [hstats, h.stats]
    simp only [Stats.add, results, List.length_cons, List.count_cons, beq_iff_eq, resultAfter]

theorem meets_calculateUpTo (t : Template) (row : Row) (cs : List Column) :
    t.Meets row cs.reverse (t.calculateUpTo row cs) := by
  induction cs using List.reverseRecOn with
  | nil => exact meets_start t row
  | append_singleton cs c ih =>
    rw [List.reverse_append, calculateUpTo, List.foldl_append]
    exact meets_step ih c

theorem isFinite_reading {earlier : List Column} {name : String}
    (h : ∃ c ∈ earlier, c.id = name) : (t.reading row earlier name).isFinite = true := by
  induction earlier with
  | nil => simp at h
  | cons c earlier ih =>
    rw [reading_cons]
    split_ifs with hc
    · exact isFinite_orZero fun x hx => isFinite_of_result hx
    · obtain ⟨c', hc', hname⟩ := h
      rcases List.mem_cons.1 hc' with rfl | hc'
      · exact absurd hname hc
      · exact ih ⟨c', hc', hname⟩

/-- The values of a row, by the meaning of its computed columns. -/
theorem values_eq (t : Template) (row : Row) :
    t.values row = (t.computed.map Column.id).eraseDups.map
      fun id => (id, t.reading row t.computed.reverse id) := by
  -- the last invariant, with the columns put back in the order of their declaration
  have h := (meets_calculateUpTo t row t.computed).values
  rwa [List.reverse_reverse] at h

theorem isFinite_of_mem_values {p : String × Float} (h : p ∈ t.values row) :
    p.2.isFinite = true := by
  rw [values_eq] at h
  obtain ⟨id, hid, rfl⟩ := List.mem_map.1 h
  obtain ⟨c, hc, hcid⟩ := List.mem_map.1 (List.mem_eraseDups.1 hid)
  exact isFinite_reading ⟨c, List.mem_reverse.2 hc, hcid⟩

/-- Behind a column, its id stands for its value until a later column has the same id. -/
theorem reading_of_split {before after : List Column} {c : Column}
    (hafter : ∀ c' ∈ after, c'.id ≠ c.id) :
    t.reading row (before ++ c :: after).reverse c.id =
      Reason.orZero (t.resultAfter row before.reverse c) := by
  have hsplit : (before ++ c :: after).reverse = after.reverse ++ (c :: before.reverse) := by simp
  rw [hsplit, reading_append _ fun c' hc' => hafter c' (List.mem_reverse.1 hc'), reading_cons,
    if_pos rfl]

/-- Every result is a value or has one of the three reasons. -/
theorem count_reasons (rs : List (Except Reason Float)) :
    rs.count (.error .selfReference) + rs.count (.error .unreadable) +
      rs.count (.error .nonFinite) = rs.countP fun r => !r.isOk := by
  induction rs with
  | nil => rfl
  | cons r rs ih =>
    rw [List.countP_cons, ← ih]
    rcases r with (_ | _ | _) | x <;>
      simp [Except.isOk, Except.toBool] <;> omega

/-- **A calculation computes the meaning of every column.** Each computed column is bound to what
it comes to; the values list every computed id once, in the order of first declaration, with the
value of its last column; all of them are finite, so that a document has a number for each; and
every column that is set to 0 counts for exactly one reason. -/
theorem calculate_spec (t : Template) (row : Row) :
    (∀ before c after, t.computed = before ++ c :: after →
      (t.calculateUpTo row (before ++ [c])).scope.get? c.id =
        some (Reason.orZero (t.resultAfter row before.reverse c))) ∧
    ((t.values row).map Prod.fst = (t.computed.map Column.id).eraseDups ∧
      ((t.values row).map Prod.fst).Nodup) ∧
    (∀ before c after, t.computed = before ++ c :: after → (∀ c' ∈ after, c'.id ≠ c.id) →
      (c.id, Reason.orZero (t.resultAfter row before.reverse c)) ∈ t.values row) ∧
    ((∀ p ∈ t.values row, p.2.isFinite = true) ∧
      Document.writeValues (t.values row) =
        .ofMembers ((t.values row).map fun p => (p.1, .number (.ofFloat p.2)))) ∧
    ((t.calculate row).stats = ⟨t.computed.length,
        (t.results row t.computed.reverse).count (.error .selfReference),
        (t.results row t.computed.reverse).count (.error .unreadable),
        (t.results row t.computed.reverse).count (.error .nonFinite)⟩ ∧
      (t.calculate row).stats.selfReferences + (t.calculate row).stats.invalid +
        (t.calculate row).stats.nonFinite =
          (t.results row t.computed.reverse).countP fun r => !r.isOk) := by
  have hids : (t.values row).map Prod.fst = (t.computed.map Column.id).eraseDups := by
    rw [values_eq, List.map_map]
    exact List.map_id _
  refine ⟨?_, ⟨hids, hids ▸ nodup_eraseDups _⟩, ?_, ⟨fun p => isFinite_of_mem_values, ?_⟩, ?_⟩
  · intro before c after _
    have hread := (meets_calculateUpTo t row before).read
    have hvalue := (plan_spec t.options.limits (t.calculateUpTo row before).scope c).1
    rw [hread] at hvalue
    rw [calculateUpTo, List.foldl_append]
    show NameMap.get? (NameMap.insert _ c.id _) c.id = _
    rw [NameMap.get?_insert, if_pos rfl]
    exact congrArg some hvalue
  · intro before c after hsplit hafter
    rw [values_eq]
    refine List.mem_map.2 ⟨c.id, List.mem_eraseDups.2 (List.mem_map.2 ⟨c, ?_, rfl⟩), ?_⟩
    · simp [hsplit]
    · rw [hsplit, reading_of_split hafter]
  · refine congrArg Json.Value.ofMembers (List.map_congr_left fun p hp => ?_)
    rw [Json.Value.ofFloat, if_pos (isFinite_of_mem_values hp)]
  · have h := (meets_calculateUpTo t row t.computed).stats
    rw [List.length_reverse] at h
    change (t.calculate row).stats = _ at h
    rw [h]
    exact ⟨rfl, count_reasons _⟩

end Template
end SheetTemplate
