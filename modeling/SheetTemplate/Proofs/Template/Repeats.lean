import SheetTemplate.Proofs.NameMap
import SheetTemplate.Proofs.Template.Issues
import SheetTemplate.Proofs.Template.Placement

/-!
# Repeated ids

Three walks over the columns of a template tell repeated ids apart: the one that enters the first
declarations, the one that stops at the first id that is there already, and the one that lists the
repeated ids. Each keeps the ids in front of the column it stands at (`Tracks`), so they part at the
same columns: the strict walk fails at the first repeated id of the list, and where the list is
empty it enters the same positions (`enterDistinct_eq`). A column is either entered or listed
(`size_enter_add_length_duplicates`).
-/

namespace SheetTemplate

/-- Whether the problem is a repeated id. -/
def Issue.isDuplicateColumn : Issue → Bool
  | duplicateColumn _ => true
  | _ => false

namespace Column.Index

open Template (duplicates)

/-- The map has the ids that have been seen. -/
def Tracks (m : NameMap Nat) (seen : List String) : Prop :=
  ∀ id, m.contains id = seen.contains id

theorem tracks_empty : Tracks .empty [] := fun _ => rfl

/-- Entering a column keeps track. -/
theorem Tracks.insert {m : NameMap Nat} {seen : List String} (h : Tracks m seen) (id : String)
    (n : Nat) : Tracks (m.insert id n) (id :: seen) := by
  intro id'
  rw [NameMap.contains_insert, List.contains_cons, h]

/-- **The strict walk fails at the first repeated id**, and where there is none it enters what the
other walk enters. -/
theorem enterDistinct_eq {m : NameMap Nat} {seen : List String} (h : Tracks m seen) (n : Nat)
    (cs : List Column) : enterDistinct m n cs = match duplicates seen cs with
      | [] => .ok (enter m n cs)
      | i :: _ => .error ⟨i.column⟩ := by
  induction cs generalizing m seen n with
  | nil => rfl
  | cons c cs ih =>
    rw [enterDistinct, enter, duplicates, h c.id]
    split_ifs
    · rfl
    · exact ih (h.insert c.id n) (n + 1)

/-- Every column is entered or listed as a repetition. -/
theorem size_enter_add_length_duplicates {m : NameMap Nat} {seen : List String}
    (h : Tracks m seen) (n : Nat) (cs : List Column) :
    (enter m n cs).size + (duplicates seen cs).length = m.size + cs.length := by
  induction cs generalizing m seen n with
  | nil => rfl
  | cons c cs ih =>
    rw [enter, duplicates, h c.id]
    split_ifs with hseen
    · rw [List.length_cons, ← Nat.add_assoc, ih h (n + 1), List.length_cons, Nat.add_assoc]
    · have hnew : m.contains c.id = false := by rw [h c.id]; exact Bool.eq_false_iff.2 hseen
      rw [ih (h.insert c.id n) (n + 1), NameMap.size_insert hnew, List.length_cons]
      omega

/-! ### The list of repetitions -/

theorem duplicates_eq_nil {seen : List String} {cs : List Column}
    (hids : (cs.map Column.id).Nodup) (hseen : ∀ c ∈ cs, c.id ∉ seen) :
    duplicates seen cs = [] := by
  induction cs generalizing seen with
  | nil => rfl
  | cons c cs ih =>
    rw [List.map_cons, List.nodup_cons] at hids
    have hc : ¬ seen.contains c.id = true := by
      rw [List.contains_iff_mem]
      exact hseen c List.mem_cons_self
    rw [duplicates, if_neg hc]
    refine ih hids.2 fun c' hc' hmem => ?_
    rcases List.mem_cons.1 hmem with hid | hmem
    · exact hids.1 (hid ▸ List.mem_map_of_mem hc')
    · exact hseen c' (List.mem_cons_of_mem _ hc') hmem

/-- No id is listed iff no two columns share one. -/
theorem duplicates_eq_nil_iff {cs : List Column} :
    duplicates [] cs = [] ↔ (cs.map Column.id).Nodup :=
  ⟨fun h => (Template.nodup_of_duplicates h).1, fun h => duplicates_eq_nil h (by simp)⟩

variable {l : Formula.Limits} {columns : List Column} {known : List String}

theorem isDuplicateColumn_of_mem_columnIssues {c : Column} {place : Nat} {i : Issue}
    (h : i ∈ Template.columnIssues l columns known c place) : i.isDuplicateColumn = false := by
  by_cases hc : c.isComputed = true
  · cases htree : c.tree? l with
    | none =>
      rcases Template.columnIssues_of_tree?_eq_none hc htree place with heq | ⟨e, heq⟩ <;>
      · rw [heq, List.mem_singleton] at h
        subst h
        rfl
    | some e =>
      rw [Template.columnIssues_of_tree?_eq_some hc htree place, List.mem_filterMap] at h
      obtain ⟨name, -, hissue⟩ := h
      rcases Template.nameIssue_cases hissue with ⟨-, rfl⟩ | ⟨-, rfl, -⟩ | ⟨-, rfl, -⟩ <;> rfl
  · rw [Template.columnIssues_of_data (by simpa using hc)] at h
    cases h

/-- The repeated ids among the problems of a template are those that the list starts with. -/
theorem filter_check :
    (Template.check l columns known).filter Issue.isDuplicateColumn = duplicates [] columns := by
  rw [Template.check, List.filter_append, List.filter_eq_self.2, List.filter_eq_nil_iff.2,
    List.append_nil]
  · intro i hi
    obtain ⟨p, -, hmem⟩ := List.mem_flatMap.1 hi
    rw [isDuplicateColumn_of_mem_columnIssues hmem]
    decide
  · intro i hi
    obtain ⟨id, rfl⟩ := Template.mem_duplicates hi
    rfl

/-! ### Positions -/

theorem find?_zipIdx_map_place (cs : List Column) (first : Nat) (id : String) :
    ((cs.zipIdx first).find? fun p => p.1.id = id).map Prod.snd =
      (cs.findIdx? fun c => c.id = id).map (· + first) := by
  induction cs generalizing first with
  | nil => rfl
  | cons c cs ih =>
    rw [List.zipIdx_cons, List.find?_cons, List.findIdx?_cons]
    by_cases hid : c.id = id
    · simp [hid]
    · simp only [hid, decide_false, Bool.false_eq_true, if_false, ih, Option.map_map]
      congr 1
      funext n
      exact (Nat.add_right_comm n 1 first).symm

theorem declaration?_map_place (cs : List Column) (id : String) :
    (Template.declaration? cs id).map Prod.snd = cs.findIdx? fun c => c.id = id := by
  rw [Template.declaration?]
  simpa using find?_zipIdx_map_place cs 0 id

/-- An id stands where it is declared first. -/
theorem position?_eq_findIdx? (cs : List Column) (id : String) :
    (ofColumns cs).position? id = (cs.findIdx? fun c => c.id = id).map (· + 1) := by
  rw [position?_ofColumns, ← declaration?_map_place, Option.map_map]
  rfl

/-- No two ids have one position. -/
theorem position?_injective {cs : List Column} {id id' : String} {n : Nat}
    (h : (ofColumns cs).position? id = some n) (h' : (ofColumns cs).position? id' = some n) :
    id = id' := by
  rw [position?_ofColumns, Option.map_eq_some_iff] at h h'
  obtain ⟨⟨c, place⟩, hc, hn⟩ := h
  obtain ⟨⟨c', place'⟩, hc', hn'⟩ := h'
  obtain ⟨hplace, rfl⟩ := Template.declaration?_eq_some hc
  obtain ⟨hplace', rfl⟩ := Template.declaration?_eq_some hc'
  obtain rfl : place = place' := Nat.succ.inj (hn.trans hn'.symm)
  rw [hplace] at hplace'
  rw [Option.some.inj hplace']

/-! ### The three views -/

theorem ofDistinct_eq (cs : List Column) : ofDistinct cs = match duplicates [] cs with
    | [] => .ok (ofColumns cs)
    | i :: _ => .error ⟨i.column⟩ := by
  rw [ofDistinct, enterDistinct_eq tracks_empty]
  cases duplicates [] cs <;> rfl

/-- **The positions of columns and the check of a template agree on repeated ids.** The positions of
distinct columns are there iff no two columns share an id, which is when the check lists no repeated
id, and then they are those of the first declarations; otherwise they fail with the first repeated
id that the check lists. An id stands at the place of its first declaration, counted from 1, no two
ids stand at one place, and every column has a place or is listed as a repetition. -/
theorem repeats_agree (l : Formula.Limits) (columns : List Column) (known : List String) :
    let repeats := (Template.check l columns known).filter Issue.isDuplicateColumn
    (∀ ix, ofDistinct columns = .ok ix ↔
      (columns.map Column.id).Nodup ∧ ix = ofColumns columns) ∧
    (repeats = [] ↔ (columns.map Column.id).Nodup) ∧
    (∀ id, ofDistinct columns = .error ⟨id⟩ ↔ repeats.head? = some (.duplicateColumn id)) ∧
    (∀ id, (ofColumns columns).position? id =
      (columns.findIdx? fun c => c.id = id).map (· + 1)) ∧
    (∀ id id' n, (ofColumns columns).position? id = some n →
      (ofColumns columns).position? id' = some n → id = id') ∧
    repeats.length + (ofColumns columns).size = columns.length := by
  intro repeats
  have hrepeats : repeats = duplicates [] columns := filter_check
  have hsize := size_enter_add_length_duplicates tracks_empty 1 columns
  rw [hrepeats, ← duplicates_eq_nil_iff, ofDistinct_eq]
  refine ⟨?_, Iff.rfl, ?_, position?_eq_findIdx? columns,
    fun _ _ _ => position?_injective, ?_⟩
  · intro ix
    cases duplicates [] columns with
    | nil => simp [eq_comm]
    | cons i is => simp
  · intro id
    cases hdup : duplicates [] columns with
    | nil => simp
    | cons i is =>
      obtain ⟨first, rfl⟩ := Template.mem_duplicates (hdup ▸ List.mem_cons_self)
      simp [Issue.column]
  · rw [Nat.add_comm]
    exact hsize.trans (Nat.zero_add _)

/-- Two ids that are repeated, one of them twice. -/
theorem repeats_agree_two_ids :
    let columns := ["km", "datum", "km", "datum", "km"].map fun id => Column.mk id .data none
    ofDistinct columns = .error ⟨"km"⟩ ∧
      ((Template.check {} columns []).filter Issue.isDuplicateColumn).length = 3 ∧
      (ofColumns columns).size = 2 ∧ (ofColumns columns).position? "datum" = some 2 := by
  intro columns
  obtain ⟨-, -, herror, hposition, -, hcount⟩ := repeats_agree {} columns []
  have hsize : (ofColumns columns).size = 2 := by decide +kernel
  refine ⟨(herror "km").2 (by decide +kernel), ?_, hsize, (hposition "datum").trans (by decide)⟩
  rw [hsize] at hcount
  exact Nat.add_right_cancel hcount

end Column.Index
end SheetTemplate
