/-!
# Finite maps over names

A finite map from names to values, kept as a list of entries in strictly increasing order of their
names. Names are ordered by their code points. One map has one list of entries, so two maps with
the same entries are equal (`NameMap.ext`), and reading after a write is `get?_insert`.
-/

namespace SheetTemplate

/-- A finite map whose entries stand in increasing order of their names. -/
@[ext] structure NameMap (α : Type) where
  entries : List (String × α)
  sorted : entries.Pairwise (fun a b => a.1 < b.1)

namespace NameMap

variable {α : Type}

/-- The map without entries. -/
def empty : NameMap α := ⟨[], List.Pairwise.nil⟩

instance : EmptyCollection (NameMap α) := ⟨empty⟩
instance : Inhabited (NameMap α) := ⟨empty⟩

/-- Put an entry into a list in order, in the place of the entry with the same name. -/
def insertEntry (k : String) (v : α) : List (String × α) → List (String × α)
  | [] => [(k, v)]
  | (k', v') :: es =>
    if k < k' then (k, v) :: (k', v') :: es
    else if k = k' then (k, v) :: es
    else (k', v') :: insertEntry k v es

/-- The first value of a name in a list of entries. -/
def find (k : String) : List (String × α) → Option α
  | [] => none
  | (k', v) :: es => if k = k' then some v else find k es

theorem mem_insertEntry {k : String} {v : α} {es : List (String × α)} {e : String × α}
    (h : e ∈ insertEntry k v es) : e = (k, v) ∨ e ∈ es := by
  induction es with
  | nil => simpa [insertEntry] using h
  | cons e' es ih =>
    obtain ⟨k', v'⟩ := e'
    simp only [insertEntry] at h
    split at h
    · simpa using h
    · split at h
      · rcases List.mem_cons.1 h with h | h
        · exact .inl h
        · exact .inr (List.mem_cons_of_mem _ h)
      · rcases List.mem_cons.1 h with h | h
        · exact .inr (h ▸ List.mem_cons_self)
        · exact (ih h).imp_right (List.mem_cons_of_mem _)

theorem lt_of_not_lt_of_ne {a b : String} (h : ¬ a < b) (hne : a ≠ b) : b < a :=
  Classical.byContradiction fun h' =>
    hne (String.le_antisymm (String.not_lt.1 h') (String.not_lt.1 h))

theorem pairwise_insertEntry (k : String) (v : α) {es : List (String × α)}
    (h : es.Pairwise (fun a b => a.1 < b.1)) :
    (insertEntry k v es).Pairwise (fun a b => a.1 < b.1) := by
  induction es with
  | nil => simp [insertEntry]
  | cons e es ih =>
    obtain ⟨k', v'⟩ := e
    obtain ⟨hlt, hes⟩ := List.pairwise_cons.1 h
    simp only [insertEntry]
    split
    · rename_i hk
      refine List.pairwise_cons.2 ⟨fun e he => ?_, h⟩
      rcases List.mem_cons.1 he with rfl | he
      · exact hk
      · exact String.lt_trans hk (hlt e he)
    · split
      · rename_i hk
        exact List.pairwise_cons.2 ⟨fun e he => hk ▸ hlt e he, hes⟩
      · rename_i hk hne
        refine List.pairwise_cons.2 ⟨fun e he => ?_, ih hes⟩
        rcases mem_insertEntry he with rfl | he
        · exact lt_of_not_lt_of_ne hk hne
        · exact hlt e he

/-- Set the value of a name. -/
def insert (m : NameMap α) (k : String) (v : α) : NameMap α :=
  ⟨insertEntry k v m.entries, pairwise_insertEntry k v m.sorted⟩

/-- The value of a name. -/
def get? (m : NameMap α) (k : String) : Option α := find k m.entries

/-- Whether a name has a value. -/
def contains (m : NameMap α) (k : String) : Bool := (m.get? k).isSome

/-- Set every entry of a list, the first one first. -/
def insertAll (m : NameMap α) (es : List (String × α)) : NameMap α :=
  es.foldl (fun m e => m.insert e.1 e.2) m

/-- The map with the given entries; of two entries with one name the later one counts. -/
def ofList (es : List (String × α)) : NameMap α := empty.insertAll es

/-- The names in increasing order. -/
def names (m : NameMap α) : List String := m.entries.map Prod.fst

/-- The number of entries. -/
def size (m : NameMap α) : Nat := m.entries.length

/-- Whether there is no entry. -/
def isEmpty (m : NameMap α) : Bool := m.entries.isEmpty

/-! ## Reading after a write -/

@[simp] theorem get?_empty (k : String) : (empty : NameMap α).get? k = none := rfl

theorem find_insertEntry (k q : String) (v : α) (es : List (String × α)) :
    find q (insertEntry k v es) = if q = k then some v else find q es := by
  induction es with
  | nil => simp [insertEntry, find]
  | cons e es ih =>
    obtain ⟨k', v'⟩ := e
    simp only [insertEntry]
    split
    · simp [find]
    · split
      · rename_i hk
        subst hk
        by_cases hq : q = k <;> simp [find, hq]
      · rename_i hne
        by_cases hq : q = k
        · subst hq
          simp [find, hne, ih]
        · simp [find, hq, ih]

@[simp] theorem get?_insert (m : NameMap α) (k q : String) (v : α) :
    (m.insert k v).get? q = if q = k then some v else m.get? q :=
  find_insertEntry k q v m.entries

@[simp] theorem contains_insert (m : NameMap α) (k q : String) (v : α) :
    (m.insert k v).contains q = (q == k || m.contains q) := by
  by_cases h : q = k <;> simp [contains, h]

end NameMap
end SheetTemplate
