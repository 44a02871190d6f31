import SheetTemplate.NameMap
import Mathlib.Data.List.Sort

/-!
# Reading after many writes

What a map holds after a list of entries is set, the first one first: a name that no entry has is
left alone, and a name that one entry has is given its value. A new name is one more entry
(`size_insert`).
-/

namespace SheetTemplate.NameMap

variable {α : Type}

@[simp] theorem insertAll_nil (m : NameMap α) : m.insertAll [] = m := rfl

@[simp] theorem insertAll_cons (m : NameMap α) (e : String × α) (es : List (String × α)) :
    m.insertAll (e :: es) = (m.insert e.1 e.2).insertAll es := rfl

theorem get?_insertAll_of_notMem {m : NameMap α} {es : List (String × α)} {k : String}
    (h : k ∉ es.map Prod.fst) : (m.insertAll es).get? k = m.get? k := by
  induction es generalizing m with
  | nil => rfl
  | cons e es ih =>
    simp only [List.map_cons, List.mem_cons, not_or] at h
    rw [insertAll_cons, ih h.2, get?_insert, if_neg h.1]

/-- Entries whose values depend on their names alone. -/
theorem get?_insertAll_map (m : NameMap α) (names : List String) (f : String → α) (k : String) :
    (m.insertAll (names.map fun n => (n, f n))).get? k =
      if k ∈ names then some (f k) else m.get? k := by
  induction names generalizing m with
  | nil => simp
  | cons n names ih =>
    rw [List.map_cons, insertAll_cons, ih, get?_insert]
    by_cases hk : k ∈ names
    · simp [hk]
    · by_cases hn : k = n <;> simp [hk, hn]

theorem get?_insertAll_of_nodup {m : NameMap α} {es : List (String × α)} {k : String} {v : α}
    (hes : (es.map Prod.fst).Nodup) (h : (k, v) ∈ es) : (m.insertAll es).get? k = some v := by
  induction es generalizing m with
  | nil => cases h
  | cons e es ih =>
    rw [List.map_cons, List.nodup_cons] at hes
    rw [insertAll_cons]
    rcases List.mem_cons.1 h with rfl | h
    · rw [get?_insertAll_of_notMem hes.1, get?_insert, if_pos rfl]
    · exact ih hes.2 h

theorem contains_insertAll {m : NameMap α} {es : List (String × α)} {k : String} :
    (m.insertAll es).contains k = true ↔ k ∈ es.map Prod.fst ∨ m.contains k = true := by
  induction es generalizing m with
  | nil => simp
  | cons e es ih => simp [ih, or_assoc, or_left_comm]

/-- Of all the entries with a name, the last one is read. -/
theorem mem_of_get?_insertAll {m : NameMap α} {es : List (String × α)} {k : String} {v : α}
    (h : (m.insertAll es).get? k = some v) : (k, v) ∈ es ∨ m.get? k = some v := by
  induction es generalizing m with
  | nil => exact .inr h
  | cons e es ih =>
    rw [insertAll_cons] at h
    rcases ih h with h | h
    · exact .inl (List.mem_cons_of_mem _ h)
    · rw [get?_insert] at h
      split_ifs at h with hk
      · obtain rfl := Option.some.inj h
        exact .inl (hk ▸ List.mem_cons_self)
      · exact .inr h

/-- Entries in which a name always has the same value are the entries of their map. -/
theorem get?_ofList_eq_some_iff {es : List (String × α)} {f : String → Option α}
    (h : ∀ e ∈ es, f e.1 = some e.2) {k : String} {v : α} :
    (ofList es).get? k = some v ↔ (k, v) ∈ es := by
  have hread : ∀ {v}, (ofList es).get? k = some v → (k, v) ∈ es := fun hv =>
    (mem_of_get?_insertAll hv).resolve_right (by simp)
  refine ⟨hread, fun hv => ?_⟩
  have hk : (ofList es).contains k = true :=
    contains_insertAll.2 (.inl (List.mem_map_of_mem hv))
  obtain ⟨v', hv'⟩ := Option.isSome_iff_exists.1 hk
  have hsame : some v' = some v := (h _ (hread hv')).symm.trans (h _ hv)
  rw [hv', hsame]

/-! ### The entries of a map -/

theorem nodup_names (m : NameMap α) : m.names.Nodup := by
  refine List.pairwise_map.2 (m.sorted.imp ?_)
  intro a b hab heq
  rw [heq] at hab
  exact String.lt_irrefl _ hab

theorem find_eq_some_of_mem {k : String} {v : α} {es : List (String × α)}
    (hes : (es.map Prod.fst).Nodup) (h : (k, v) ∈ es) : find k es = some v := by
  induction es with
  | nil => cases h
  | cons e es ih =>
    rw [List.map_cons, List.nodup_cons] at hes
    rcases List.mem_cons.1 h with rfl | h
    · simp [find]
    · have hne : k ≠ e.1 := fun heq => hes.1 (heq ▸ List.mem_map_of_mem h)
      rw [find, if_neg hne, ih hes.2 h]

theorem get?_eq_some_of_mem {m : NameMap α} {k : String} {v : α} (h : (k, v) ∈ m.entries) :
    m.get? k = some v :=
  find_eq_some_of_mem m.nodup_names h

theorem mem_of_find_eq_some {k : String} {v : α} {es : List (String × α)}
    (h : find k es = some v) : (k, v) ∈ es := by
  induction es with
  | nil => cases h
  | cons e es ih =>
    rw [find] at h
    split_ifs at h with hk
    · obtain rfl := Option.some.inj h
      exact hk ▸ List.mem_cons_self
    · exact List.mem_cons_of_mem _ (ih h)

theorem mem_entries_iff {m : NameMap α} {k : String} {v : α} :
    (k, v) ∈ m.entries ↔ m.get? k = some v :=
  ⟨get?_eq_some_of_mem, mem_of_find_eq_some⟩

theorem mem_names_iff {m : NameMap α} {k : String} : k ∈ m.names ↔ m.contains k = true := by
  rw [names, List.mem_map, contains, Option.isSome_iff_exists]
  constructor
  · rintro ⟨e, he, rfl⟩
    exact ⟨e.2, get?_eq_some_of_mem he⟩
  · rintro ⟨v, hv⟩
    exact ⟨(k, v), mem_entries_iff.2 hv, rfl⟩

/-- Maps from which the same values are read are equal. -/
theorem eq_of_get? {m m' : NameMap α} (h : ∀ k, m.get? k = m'.get? k) : m = m' := by
  have hirrefl : Std.Irrefl fun a b : String × α => a.1 < b.1 := ⟨fun a => String.lt_irrefl a.1⟩
  have hasymm : Std.Asymm fun a b : String × α => a.1 < b.1 := ⟨fun _ _ => String.lt_asymm⟩
  refine NameMap.ext (m.sorted.eq_of_mem_iff m'.sorted fun e => ?_)
  rw [← Prod.mk.eta (p := e), mem_entries_iff, mem_entries_iff, h]

/-- All the entries of a map, set in another one. -/
theorem get?_insertAll_entries (m a : NameMap α) (k : String) :
    (m.insertAll a.entries).get? k = (a.get? k).or (m.get? k) := by
  cases hk : a.get? k with
  | none =>
    have hnot : k ∉ a.names := fun hmem => by simp [mem_names_iff, contains, hk] at hmem
    rw [get?_insertAll_of_notMem hnot, Option.none_or]
  | some v =>
    rw [get?_insertAll_of_nodup a.nodup_names (mem_entries_iff.2 hk), Option.some_or]

theorem ofList_entries (m : NameMap α) : ofList m.entries = m :=
  eq_of_get? fun k => by rw [ofList, get?_insertAll_entries, get?_empty, Option.or_none]

/-! ### The number of entries -/

theorem length_insertEntry {k : String} {es : List (String × α)} (h : find k es = none) (v : α) :
    (insertEntry k v es).length = es.length + 1 := by
  induction es with
  | nil => rfl
  | cons e es ih =>
    obtain ⟨k', v'⟩ := e
    rw [find] at h
    split_ifs at h with hk
    rw [insertEntry]
    split_ifs
    · rfl
    · rw [List.length_cons, ih h, List.length_cons]

/-- A new name is one more entry. -/
theorem size_insert {m : NameMap α} {k : String} (h : m.contains k = false) (v : α) :
    (m.insert k v).size = m.size + 1 := by
  rw [contains, Option.isSome_eq_false_iff, Option.isNone_iff_eq_none] at h
  exact length_insertEntry h v

end SheetTemplate.NameMap
