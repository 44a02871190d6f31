import SheetTemplate.Document.Record
import SheetTemplate.Proofs.NameMap

/-!
# Reading records and maps

Lists and maps are read part by part, so they are read back exactly where their parts are
(`readAll_map_iff`, `readMap_writeMap_iff`). Of several members of a map with one name the last one
is read (`readsLast_readMap`). A record that is written as an array is the record of its fields as
members (`readFields_array`), and one in which a field is missing is the record in which the field
stands with its default; so it is for whatever is read off the fields of a record
(`readsRecord_of_factorsThrough`).
-/

namespace SheetTemplate.Document

open Json (Value Text)

/-! ### Lists -/

section Lists

variable {α β : Type} {read : α → Option β} {as : List α} {bs : List β}

theorem readAll_eq_some_iff :
    readAll read as = some bs ↔ List.Forall₂ (fun a b => read a = some b) as bs := by
  induction as generalizing bs with
  | nil => simp [readAll, eq_comm]
  | cons a as ih =>
    rw [readAll]
    constructor
    · intro h
      split at h
      · rename_i b bs' hb hbs
        obtain rfl := Option.some.inj h
        exact .cons hb (ih.1 hbs)
      · cases h
    · rintro (_ | ⟨hb, hbs⟩)
      rw [hb, ih.2 hbs]

theorem readAll_eq_some_map {f : α → β} (h : ∀ a ∈ as, read a = some (f a)) :
    readAll read as = some (as.map f) :=
  readAll_eq_some_iff.2 (List.forall₂_map_right_iff.2 (List.forall₂_same.2 h))

theorem readAll_eq_none_iff : readAll read as = none ↔ ∃ a ∈ as, read a = none := by
  induction as with
  | nil => simp [readAll]
  | cons a as ih =>
    rw [readAll, List.exists_mem_cons_iff, ← ih]
    cases read a <;> cases readAll read as <;> simp

theorem readAll_congr {read' : α → Option β} (h : ∀ a ∈ as, read a = read' a) :
    readAll read as = readAll read' as := by
  induction as with
  | nil => rfl
  | cons a as ih =>
    rw [readAll, readAll, h a List.mem_cons_self, ih fun b hb => h b (List.mem_cons_of_mem _ hb)]

/-- A list is read back exactly where each of its parts is. -/
theorem readAll_map_iff {write : β → α} :
    readAll read (bs.map write) = some bs ↔ ∀ b ∈ bs, read (write b) = some b := by
  rw [readAll_eq_some_iff, List.forall₂_map_left_iff, List.forall₂_same]

theorem exists_of_readAll (h : readAll read as = some bs) {b : β} (hb : b ∈ bs) :
    ∃ a ∈ as, read a = some b := by
  rw [readAll_eq_some_iff] at h
  obtain ⟨i, hi, rfl⟩ := List.getElem_of_mem hb
  have hi' : i < as.length := h.length_eq ▸ hi
  exact ⟨as[i], List.getElem_mem hi', h.get hi' hi⟩

end Lists

/-! ### Maps -/

section Maps

variable {α : Type} {read : Value → Option α} {write : α → Value} {m : NameMap α}
  {members : List (Text × Value)}

theorem readMember_eq_some_iff {member : Text × Value} {e : String × α} :
    readMember read member = some e ↔ member.1 = some e.1 ∧ read member.2 = some e.2 := by
  obtain ⟨name, v⟩ := member
  obtain ⟨name', a⟩ := e
  unfold readMember
  cases name <;> cases read v <;> simp

theorem exists_of_readMap {v : Value} (h : readMap read v = some m) :
    ∃ members, v = .object members := by
  cases v with
  | object members => exact ⟨members, rfl⟩
  | _ => cases h

/-- Every entry of a map is read off a value. -/
theorem exists_of_mem_readMap {v : Value} (h : readMap read v = some m) {e : String × α}
    (he : e ∈ m.entries) : ∃ w, read w = some e.2 := by
  obtain ⟨members, rfl⟩ := exists_of_readMap h
  obtain ⟨es, hes, rfl⟩ := Option.map_eq_some_iff.1 h
  have hmem : e ∈ es :=
    (NameMap.mem_of_get?_insertAll (NameMap.mem_entries_iff.1 he)).resolve_right (by simp)
  obtain ⟨member, -, hread⟩ := exists_of_readAll hes hmem
  exact ⟨member.2, (readMember_eq_some_iff.1 hread).2⟩

/-- The entries that are read have the names of the members. -/
theorem map_fst_of_readAll {es : List (String × α)}
    (h : readAll (readMember read) members = some es) :
    members.map Prod.fst = (es.map Prod.fst).map some := by
  rw [readAll_eq_some_iff] at h
  induction h with
  | nil => rfl
  | cons hread _ ih =>
    rw [List.map_cons, List.map_cons, List.map_cons, ih, (readMember_eq_some_iff.1 hread).1]

/-- A map is read back exactly where each of its values is. -/
theorem readMap_writeMap_iff :
    readMap read (writeMap write m) = some m ↔ ∀ e ∈ m.entries, read (write e.2) = some e.2 := by
  have hentries : readMap read (writeMap write m) = some m ↔ readAll (readMember read)
      (m.entries.map fun e => (some e.1, write e.2)) = some m.entries := by
    simp only [writeMap, Value.ofMembers, readMap, List.map_map, Function.comp_def,
      Option.map_eq_some_iff]
    constructor
    · rintro ⟨es, hes, hm⟩
      -- the entries that are read have the names of the map in their order, so they are its own
      have hnames : es.map Prod.fst = m.names := by
        have hsome := map_fst_of_readAll hes
        rw [List.map_map, Function.comp_def] at hsome
        refine List.map_injective_iff.2 (Option.some_injective _) ?_
        rw [← hsome, NameMap.names, List.map_map, Function.comp_def]
      have hsorted : es.Pairwise fun a b => a.1 < b.1 := by
        refine List.pairwise_map.1 (?_ : (es.map Prod.fst).Pairwise (· < ·))
        rw [hnames, NameMap.names]
        exact List.pairwise_map.2 m.sorted
      have hes' : m = ⟨es, hsorted⟩ := hm.symm.trans (NameMap.ofList_entries ⟨es, hsorted⟩)
      rw [hes, hes']
    · exact fun h => ⟨m.entries, h, m.ofList_entries⟩
  rw [hentries, readAll_map_iff]
  simp only [readMember_eq_some_iff, true_and]

/-- Of several members with one name a map reads the last one. -/
def ReadsLast (readAs : Value → Option (NameMap α)) (read : Value → Option α) : Prop :=
  ∀ members m, readAs (.object members) = some m → ∀ name,
    m.get? name = ((members.filter fun member => member.1 = some name).getLast?).bind
      fun member => read member.2

theorem readsLast_readMap (read : Value → Option α) : ReadsLast (readMap read) read := by
  intro members m h name
  obtain ⟨es, hes, rfl⟩ := Option.map_eq_some_iff.1 h
  rw [readAll_eq_some_iff] at hes
  clear h
  have hinto : ∀ start : NameMap α, (start.insertAll es).get? name =
      ((members.filter fun member => member.1 = some name).getLast?).elim (start.get? name)
        fun member => read member.2 := by
    induction hes with
    | nil => exact fun start => rfl
    | @cons member e members es hread hes ih =>
      intro start
      obtain ⟨hname, hvalue⟩ := readMember_eq_some_iff.1 hread
      rw [NameMap.insertAll_cons, ih, NameMap.get?_insert, List.filter_cons, hname]
      by_cases hn : name = e.1
      · rw [if_pos hn, if_pos (by simp [hn]), List.getLast?_cons]
        cases (members.filter fun member => member.1 = some name).getLast? with
        | none => exact hvalue.symm
        | some member' => rfl
      · rw [if_neg hn, if_neg (by simp [Ne.symm hn])]
  rw [NameMap.ofList, hinto, NameMap.get?_empty]
  cases (members.filter fun member => member.1 = some name).getLast? with
  | none => rfl
  | some member => rfl

end Maps

/-! ### Records -/

section Records

variable {names : List String}

/-- The members of a record whose first fields are given. -/
def fieldMembers (names : List String) (items : List Value) : List (Text × Value) :=
  (names.zip items).map fun field => (some field.1, field.2)

@[simp] theorem fieldMembers_nil (names : List String) : fieldMembers names [] = [] := by
  rw [fieldMembers, List.zip_nil_right, List.map_nil]

@[simp] theorem fieldMembers_cons (name : String) (names : List String) (v : Value)
    (items : List Value) : fieldMembers (name :: names) (v :: items) =
      (some name, v) :: fieldMembers names items := rfl

theorem field?_cons_of_ne {name name' : String} (h : name' ≠ name) (v : Value)
    (members : List (Text × Value)) :
    field? ((some name', v) :: members) name = field? members name := by
  rw [field?, field?, List.filter_cons_of_neg (by simpa using h)]

theorem filter_of_absent {name : String} {members : List (Text × Value)}
    (h : ∀ member ∈ members, member.1 ≠ some name) :
    (members.filter fun member => member.1 = some name) = [] :=
  List.filter_eq_nil_iff.2 fun member hmember => by simpa using h member hmember

theorem field?_of_absent {name : String} {members : List (Text × Value)}
    (h : ∀ member ∈ members, member.1 ≠ some name) : field? members name = some none := by
  rw [field?, filter_of_absent h]

theorem field?_cons_self {name : String} {members : List (Text × Value)}
    (h : ∀ member ∈ members, member.1 ≠ some name) (v : Value) :
    field? ((some name, v) :: members) name = some (some v) := by
  rw [field?, List.filter_cons_of_pos (by simp), filter_of_absent h]

/-- A member in front is the field of its name, where that is missing behind it. -/
theorem field?_cons {name : String} {members : List (Text × Value)}
    (h : ∀ member ∈ members, member.1 ≠ some name) (v : Value) (name' : String) :
    field? ((some name, v) :: members) name' =
      if name' = name then some (some v) else field? members name' := by
  split_ifs with hname
  · rw [hname, field?_cons_self h]
  · exact field?_cons_of_ne (Ne.symm hname) v members

/-- A member with a name in front does not change whether all members have one. -/
theorem all_isSome_cons (name : String) (v : Value) (members : List (Text × Value)) :
    ((some name, v) :: members).all (fun m => m.1.isSome) = members.all fun m => m.1.isSome := by
  simp

theorem ne_of_mem_fieldMembers {name : String} (h : name ∉ names) {items : List Value}
    {member : Text × Value} (hmember : member ∈ fieldMembers names items) :
    member.1 ≠ some name := by
  obtain ⟨field, hfield, rfl⟩ := List.mem_map.1 hmember
  intro heq
  exact h (Option.some.inj heq ▸ (List.of_mem_zip hfield).1)

/-- The fields of a record are read in the order of their names, the last ones missing. -/
theorem readAll_fieldMembers (hnames : names.Nodup) {items : List Value}
    (hlength : items.length ≤ names.length) : readAll (field? (fieldMembers names items)) names =
      some (items.map some ++ List.replicate (names.length - items.length) none) := by
  induction names generalizing items with
  | nil =>
    cases items with
    | nil => rfl
    | cons v items => simp at hlength
  | cons name names ih =>
    rw [List.nodup_cons] at hnames
    cases items with
    | nil =>
      have hnone := @ih hnames.2 [] (Nat.zero_le _)
      rw [fieldMembers_nil] at hnone ⊢
      rw [readAll, hnone]
      rfl
    | cons v items =>
      have hrest := ih hnames.2 (Nat.le_of_succ_le_succ hlength)
      have habsent : ∀ member ∈ fieldMembers names items, member.1 ≠ some name :=
        fun member hmember => ne_of_mem_fieldMembers hnames.1 hmember
      have hcongr : readAll (field? ((some name, v) :: fieldMembers names items)) names =
          readAll (field? (fieldMembers names items)) names := by
        refine readAll_congr fun name' hname' => field?_cons_of_ne ?_ v _
        rintro rfl
        exact hnames.1 hname'
      rw [fieldMembers_cons, readAll, hcongr, hrest, field?_cons_self habsent]
      simp

theorem readFields_fieldMembers (hnames : names.Nodup) (items : List Value)
    (hlength : items.length ≤ names.length) :
    readFields names (.object (fieldMembers names items)) =
      some (items.map some ++ List.replicate (names.length - items.length) none) := by
  have hall : (fieldMembers names items).all (fun m => m.1.isSome) = true := by
    simp [fieldMembers]
  simp only [readFields]
  rw [if_pos hall, readAll_fieldMembers hnames hlength]

theorem readFields_object {members : List (Text × Value)} {find : String → Option Value}
    (hall : members.all (fun m => m.1.isSome) = true)
    (hfind : ∀ name ∈ names, field? members name = some (find name)) :
    readFields names (.object members) = some (names.map find) := by
  rw [readFields, if_pos hall, readAll_eq_some_map hfind]

/-- An object is refused where a member has no name or a field stands twice. -/
theorem readFields_object_eq_none_iff {members : List (Text × Value)} :
    readFields names (.object members) = none ↔
      (members.all fun m => m.1.isSome) = false ∨ ∃ name ∈ names, field? members name = none := by
  rw [readFields]
  split_ifs with hall
  · simp only [hall, Bool.true_eq_false, false_or, readAll_eq_none_iff]
  · simp only [Bool.eq_false_iff.2 hall, true_or]

/-- **A record that is written as an array** is the record with its fields as members. -/
theorem readFields_array (hnames : names.Nodup) {items : List Value}
    (hlength : items.length ≤ names.length) :
    readFields names (.array items) = readFields names (.object (fieldMembers names items)) := by
  rw [readFields_fieldMembers hnames items hlength, readFields, if_pos hlength]

theorem readFields_array_of_lt {items : List Value} (hlength : names.length < items.length) :
    readFields names (.array items) = none := by
  rw [readFields, if_neg (Nat.not_le_of_lt hlength)]

end Records

/-- How the fields of a record are read: as members of an object or as the items of an array, where
a missing one stands for its default, if it has one. -/
structure ReadsRecord {α : Type} (read : Value → Option α) (names : List String)
    (defaults : List (String × Value)) : Prop where
  array : ∀ items, read (.array items) =
    if items.length ≤ names.length then read (.object (fieldMembers names items)) else none
  default : ∀ field ∈ defaults, ∀ members : List (Text × Value),
    (∀ member ∈ members, member.1 ≠ some field.1) →
      read (.object ((some field.1, field.2) :: members)) = read (.object members)

/-- **A record that is read off its fields** may be an array of them, and a field may be missing
where its default instead of nothing does not change what is read. -/
theorem readsRecord_of_factorsThrough {α : Type} {read : Value → Option α} {names : List String}
    {defaults : List (String × Value)} (hnames : names.Nodup)
    (hfactors : Function.FactorsThrough read (readFields names)) (hnull : read .null = none)
    (hdefault : ∀ field ∈ defaults, ∀ (find : String → Option Value) (v w : Value),
      find field.1 = none → readFields names v = some (names.map find) →
      readFields names w = some (names.map (Function.update find field.1 (some field.2))) →
      read w = read v) : ReadsRecord read names defaults where
  array items := by
    split_ifs with hlength
    · exact hfactors (readFields_array hnames hlength)
    · exact (hfactors (readFields_array_of_lt (Nat.lt_of_not_le hlength))).trans hnull
  default field hfield members habsent := by
    have hall := all_isSome_cons field.1 field.2 members
    have hfield? := field?_cons habsent field.2
    have hmissing := field?_of_absent habsent
    by_cases hrefused : readFields names (.object members) = none
    · -- the default in front neither takes a name away nor makes a field stand twice
      refine hfactors (.trans ?_ hrefused.symm)
      rw [readFields_object_eq_none_iff, hall]
      rcases readFields_object_eq_none_iff.1 hrefused with hunnamed | ⟨name, hname, htwice⟩
      · exact .inl hunnamed
      · have hne : name ≠ field.1 := by
          rintro rfl
          exact absurd (hmissing.symm.trans htwice) nofun
        exact .inr ⟨name, hname, by rw [hfield?, if_neg hne, htwice]⟩
    · rw [readFields_object_eq_none_iff, not_or, Bool.not_eq_false] at hrefused
      obtain ⟨hnamed, hfound⟩ := hrefused
      have hfind : ∀ name ∈ names,
          field? members name = some ((field? members name).getD none) := by
        intro name hname
        obtain ⟨o, ho⟩ := Option.ne_none_iff_exists'.1 fun hnone => hfound ⟨name, hname, hnone⟩
        rw [ho, Option.getD_some]
      refine hdefault field hfield (fun name => (field? members name).getD none) _ _ ?_
        (readFields_object hnamed hfind)
        (readFields_object (hall.trans hnamed) fun name hname => ?_)
      · rw [hmissing, Option.getD_some]
      · rw [hfield?, Function.update_apply]
        split_ifs
        · rfl
        · exact hfind name hname

end SheetTemplate.Document
