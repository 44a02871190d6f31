import SheetTemplate.Proofs.Json.Numerals
import SheetTemplate.Proofs.Json.Strings

/-!
# Values read back

A value whose numbers are numbers of JSON and whose texts are there is read back from its text on
one line (`parse?_compact`). The induction is over the value, in front of whatever ends a value; the
parts of a value are fewer than twice its characters, so the reader does not stop early.
-/

namespace SheetTemplate.Json.Value

mutual

/-- The numbers of a value are numbers of JSON, and its texts are there. -/
def WellFormed : Value → Prop
  | null => True
  | bool _ => True
  | number n => n.WellFormed
  | string s => s.isSome = true
  | array items => WellFormedItems items
  | object members => WellFormedMembers members

/-- Every item is well formed. -/
def WellFormedItems : List Value → Prop
  | [] => True
  | v :: vs => v.WellFormed ∧ WellFormedItems vs

/-- Every member is well formed, and so is its name. -/
def WellFormedMembers : List (Text × Value) → Prop
  | [] => True
  | (name, v) :: ms => name.isSome = true ∧ v.WellFormed ∧ WellFormedMembers ms

end

theorem wellFormedItems_iff {items : List Value} :
    WellFormedItems items ↔ ∀ v ∈ items, v.WellFormed := by
  induction items with
  | nil => simp [WellFormedItems]
  | cons v vs ih => simp [WellFormedItems, ih]

theorem wellFormedMembers_iff {members : List (Text × Value)} :
    WellFormedMembers members ↔ ∀ m ∈ members, m.1.isSome = true ∧ m.2.WellFormed := by
  induction members with
  | nil => simp [WellFormedMembers]
  | cons m ms ih => simp [WellFormedMembers, ih, and_assoc]

theorem wellFormed_ofString (s : String) : (ofString s).WellFormed := by
  rw [ofString, WellFormed]
  rfl

theorem wellFormed_ofFloat (x : Float) : (ofFloat x).WellFormed := by
  unfold ofFloat
  split_ifs with h
  · rw [WellFormed]
    exact Numeral.wellFormed_ofFloat h
  · rw [WellFormed]
    trivial

theorem wellFormed_ofMembers {ms : List (String × Value)} (h : ∀ m ∈ ms, m.2.WellFormed) :
    (ofMembers ms).WellFormed := by
  rw [ofMembers, WellFormed, wellFormedMembers_iff]
  intro member hmember
  obtain ⟨m, hm, rfl⟩ := List.mem_map.1 hmember
  exact ⟨rfl, h m hm⟩

/-! ### How texts start -/

/-- A text that starts with a character that is no blank is not cut. -/
theorem skipBlanks_cons {c : Char} (h : isBlank c = false) (cs : List Char) :
    skipBlanks (c :: cs) = c :: cs :=
  List.dropWhile_cons_of_neg (by rw [h]; exact Bool.false_ne_true)

/-- A number starts with a minus or a digit. -/
theorem exists_chars_eq_cons {n : Numeral} (h : n.WellFormed) :
    ∃ c cs, n.chars = c :: cs ∧ (c = '-' ∨ c.isDigit = true) := by
  rw [Numeral.chars_eq]
  cases n.negative with
  | true => exact ⟨'-', _, rfl, .inl rfl⟩
  | false =>
    have hwhole := h.isWhole
    have hdigits := h.wholeDigits
    cases hw : n.whole with
    | nil =>
      rw [hw] at hwhole
      cases hwhole
    | cons c cs => exact ⟨c, _, rfl, .inr (hdigits c (hw ▸ List.mem_cons_self))⟩

/-- What starts a number starts no other value, and is no blank. -/
theorem ne_of_startsNumeral {c d : Char} (h : c = '-' ∨ c.isDigit = true)
    (hd : d ≠ '-' ∧ d.isDigit = false) : c ≠ d := by
  rintro rfl
  rcases h with h | h
  · exact hd.1 h
  · rw [h] at hd
    cases hd.2

theorem isBlank_of_startsNumeral {c : Char} (h : c = '-' ∨ c.isDigit = true) :
    isBlank c = false := by
  rw [Bool.eq_false_iff]
  intro hblank
  simp only [isBlank, Bool.or_eq_true, decide_eq_true_eq] at hblank
  rcases hblank with ((hc | hc) | hc) | hc <;> exact ne_of_startsNumeral h (by decide) hc

/-- A written value starts with a character that is no blank and closes no array. -/
theorem exists_compact_eq_cons {v : Value} (h : v.WellFormed) :
    ∃ c cs, v.compact = c :: cs ∧ isBlank c = false ∧ c ≠ ']' := by
  cases v with
  | null => exact ⟨'n', _, rfl, rfl, by decide⟩
  | bool b => cases b with
    | true => exact ⟨'t', _, rfl, rfl, by decide⟩
    | false => exact ⟨'f', _, rfl, rfl, by decide⟩
  | number n =>
    obtain ⟨c, cs, hchars, hc⟩ := exists_chars_eq_cons h
    exact ⟨c, cs, hchars, isBlank_of_startsNumeral hc, ne_of_startsNumeral hc (by decide)⟩
  | string s => exact ⟨'"', _, rfl, rfl, by decide⟩
  | array items => exact ⟨'[', _, by rw [compact], rfl, by decide⟩
  | object members => exact ⟨'{', _, by rw [compact], rfl, by decide⟩

theorem compactItems_cons (v : Value) (vs : List Value) : ∃ cs,
    compactItems (v :: vs) = v.compact ++ cs := by
  cases vs with
  | nil => exact ⟨[], by rw [compactItems, List.append_nil]⟩
  | cons w ws => exact ⟨_, by rw [compactItems]; simp⟩

theorem compactMembers_cons (m : Text × Value) (ms : List (Text × Value)) : ∃ cs,
    compactMembers (m :: ms) = '"' :: cs := by
  obtain ⟨name, v⟩ := m
  cases ms with
  | nil => exact ⟨_, by rw [compactMembers, compactMember, quote]; rfl⟩
  | cons w ws => exact ⟨_, by rw [compactMembers, compactMember, quote]; rfl; simp⟩

/-! ### One step of the reader -/

/-- A number at the front of a text is taken. -/
theorem take_number {n : Numeral} (h : n.WellFormed) (fuel : Nat) {rest : List Char}
    (hrest : Closes rest) : take (fuel + 1) (n.chars ++ rest) = some (.number n, rest) := by
  have hread := takeNumeral_chars h hrest
  obtain ⟨c, cs, hchars, hc⟩ := exists_chars_eq_cons h
  rw [hchars, List.cons_append] at hread ⊢
  have hne : ∀ d, d ≠ '-' ∧ d.isDigit = false → ∀ ds ds' : List Char, c :: ds ≠ d :: ds' :=
    fun d hd ds ds' heq => ne_of_startsNumeral hc hd (List.cons.inj heq).1
  rw [take, skipBlanks_cons (isBlank_of_startsNumeral hc)]
  split
  · exact absurd ‹_› (hne 'n' (by decide) _ _)
  · exact absurd ‹_› (hne 't' (by decide) _ _)
  · exact absurd ‹_› (hne 'f' (by decide) _ _)
  · exact absurd ‹_› (hne '"' (by decide) _ _)
  · exact absurd ‹_› (hne '[' (by decide) _ _)
  · exact absurd ‹_› (hne '{' (by decide) _ _)
  · rw [hread, Option.map_some]

/-- A string at the front of a text is taken. -/
theorem take_string (s : String) (fuel : Nat) (rest : List Char) :
    take (fuel + 1) (quote (some s) ++ rest) = some (.string (some s), rest) := by
  simp only [quote, Option.getD_some, List.cons_append, List.append_assoc, List.nil_append]
  rw [take, skipBlanks_cons rfl]
  simp only [takeString_written, Option.map_some]

/-- What stands behind an opening bracket is an item where it does not close the array. -/
theorem take_array (fuel : Nat) {c : Char} (hblank : isBlank c = false) (hc : c ≠ ']')
    (cs : List Char) : take (fuel + 1) ('[' :: c :: cs) =
      (takeItems fuel (c :: cs)).map fun p => (.array p.1, p.2) := by
  rw [take, skipBlanks_cons rfl]
  simp only [skipBlanks_cons hblank]
  split
  · exact absurd (List.cons.inj ‹_›).1 hc
  · rfl

theorem take_object (fuel : Nat) (cs : List Char) : take (fuel + 1) ('{' :: '"' :: cs) =
    (takeMembers fuel ('"' :: cs)).map fun p => (.object p.1, p.2) := by
  rw [take, skipBlanks_cons rfl]
  simp only [skipBlanks_cons (c := '"') rfl]
  rfl

/-- A member is the last one where a brace stands behind its value. -/
theorem takeMembers_last (name : String) {fuel : Nat} {v : Value} {cs rest : List Char}
    (h : take fuel cs = some (v, '}' :: rest)) :
    takeMembers (fuel + 1) (quote (some name) ++ ':' :: cs) = some ([(some name, v)], rest) := by
  simp only [quote, Option.getD_some, List.cons_append, List.append_assoc, List.nil_append]
  rw [takeMembers, skipBlanks_cons rfl]
  simp only [takeString_written, skipBlanks_cons (c := ':') rfl, h, skipBlanks_cons (c := '}') rfl]

/-- Another member follows where a comma stands behind its value. -/
theorem takeMembers_next (name : String) {fuel : Nat} {v : Value} {cs rest : List Char}
    (h : take fuel cs = some (v, ',' :: rest)) :
    takeMembers (fuel + 1) (quote (some name) ++ ':' :: cs) =
      (takeMembers fuel rest).map fun p => ((some name, v) :: p.1, p.2) := by
  simp only [quote, Option.getD_some, List.cons_append, List.append_assoc, List.nil_append]
  rw [takeMembers, skipBlanks_cons rfl]
  simp only [takeString_written, skipBlanks_cons (c := ':') rfl, h, skipBlanks_cons (c := ',') rfl]

/-! ### The whole reader -/

/-- The fuel that is enough for a text. -/
abbrev Enough (fuel : Nat) (cs : List Char) : Prop := 2 * cs.length < fuel

mutual

/-- **A value is read back from its text**, in front of what ends a value. -/
theorem take_compact : ∀ (v : Value) (fuel : Nat) (rest : List Char), v.WellFormed →
    Enough fuel v.compact → Closes rest → take fuel (v.compact ++ rest) = some (v, rest)
  | v, 0, _, _, hfuel, _ => absurd hfuel (Nat.not_lt_zero _)
  | .null, fuel + 1, rest, _, _, _ => by
    rw [compact, take]
    rfl
  | .bool true, fuel + 1, rest, _, _, _ => by
    rw [compact, take]
    rfl
  | .bool false, fuel + 1, rest, _, _, _ => by
    rw [compact, take]
    rfl
  | .number n, fuel + 1, rest, h, _, hrest => by
    rw [compact]
    exact take_number h fuel hrest
  | .string (some s), fuel + 1, rest, _, _, _ => by
    rw [compact]
    exact take_string s fuel rest
  | .string none, fuel + 1, _, h, _, _ => by cases h
  | .array [], fuel + 1, rest, _, _, _ => by
    rw [compact, compactItems, take]
    rfl
  | .array (v :: vs), fuel + 1, rest, h, hfuel, _ => by
    rw [compact] at hfuel ⊢
    rw [WellFormed, WellFormedItems] at h
    obtain ⟨cs, hcs⟩ := compactItems_cons v vs
    obtain ⟨c, ds, hv, hblank, hc⟩ := exists_compact_eq_cons h.1
    have hitems := takeItems_compact v vs fuel rest h.1 h.2 (by
      simp only [Enough, List.length_cons, List.length_append] at hfuel ⊢
      omega)
    rw [hcs, hv] at hitems ⊢
    simp only [List.cons_append, List.append_assoc, List.nil_append] at hitems ⊢
    rw [take_array fuel hblank hc, hitems, Option.map_some]
  | .object [], fuel + 1, rest, _, _, _ => by
    rw [compact, compactMembers, take]
    rfl
  | .object ((name, v) :: ms), fuel + 1, rest, h, hfuel, _ => by
    rw [compact] at hfuel ⊢
    rw [WellFormed, WellFormedMembers] at h
    obtain ⟨cs, hcs⟩ := compactMembers_cons (name, v) ms
    have hmembers := takeMembers_compact name v ms fuel rest h.1 h.2.1 h.2.2 (by
      simp only [Enough, List.length_cons, List.length_append] at hfuel ⊢
      omega)
    rw [hcs] at hmembers ⊢
    simp only [List.cons_append, List.append_assoc, List.nil_append] at hmembers ⊢
    rw [take_object, hmembers, Option.map_some]

/-- Items are read back from their text, in front of the closing bracket. -/
theorem takeItems_compact : ∀ (v : Value) (vs : List Value) (fuel : Nat) (rest : List Char),
    v.WellFormed → WellFormedItems vs → Enough fuel (']' :: compactItems (v :: vs)) →
      takeItems fuel (compactItems (v :: vs) ++ ']' :: rest) = some (v :: vs, rest)
  | _, _, 0, _, _, _, hfuel => absurd hfuel (Nat.not_lt_zero _)
  | v, [], fuel + 1, rest, hv, _, hfuel => by
    rw [compactItems] at hfuel ⊢
    rw [takeItems, take_compact v fuel (']' :: rest) hv (by
      simp only [Enough, List.length_cons] at hfuel ⊢
      omega) (closes_cons (by decide) rest)]
    rfl
  | v, w :: ws, fuel + 1, rest, hv, hws, hfuel => by
    rw [compactItems] at hfuel ⊢
    · rw [List.append_assoc, List.cons_append, takeItems, take_compact v fuel _ hv (by
        simp only [Enough, List.length_cons, List.length_append] at hfuel ⊢
        omega) (closes_cons (by decide) _)]
      rw [WellFormedItems] at hws
      have hitems := takeItems_compact w ws fuel rest hws.1 hws.2 (by
        simp only [Enough, List.length_cons, List.length_append] at hfuel ⊢
        omega)
      simp only [skipBlanks_cons (c := ',') rfl, hitems, Option.map_some]
    · simp
    · simp

/-- Members are read back from their text, in front of the closing brace. -/
theorem takeMembers_compact : ∀ (name : Text) (v : Value) (ms : List (Text × Value)) (fuel : Nat)
    (rest : List Char), name.isSome = true → v.WellFormed → WellFormedMembers ms →
      Enough fuel ('}' :: compactMembers ((name, v) :: ms)) →
      takeMembers fuel (compactMembers ((name, v) :: ms) ++ '}' :: rest) =
        some ((name, v) :: ms, rest)
  | _, _, _, 0, _, _, _, _, hfuel => absurd hfuel (Nat.not_lt_zero _)
  | some name, v, [], fuel + 1, rest, _, hv, _, hfuel => by
    rw [compactMembers, compactMember] at hfuel ⊢
    have hvalue := take_compact v fuel ('}' :: rest) hv (by
      simp only [Enough, List.length_cons, List.length_append] at hfuel ⊢
      omega) (closes_cons (by decide) rest)
    rw [List.append_assoc, List.cons_append, takeMembers_last name hvalue]
  | some name, v, (name', w) :: ms, fuel + 1, rest, _, hv, hms, hfuel => by
    rw [compactMembers, compactMember] at hfuel ⊢
    · have hvalue := take_compact v fuel (',' :: (compactMembers ((name', w) :: ms) ++ '}' :: rest))
        hv (by
          simp only [Enough, List.length_cons, List.length_append] at hfuel ⊢
          omega) (closes_cons (by decide) _)
      rw [WellFormedMembers] at hms
      have hmembers := takeMembers_compact name' w ms fuel rest hms.1 hms.2.1 hms.2.2 (by
        simp only [Enough, List.length_cons, List.length_append] at hfuel ⊢
        omega)
      rw [List.append_assoc, List.append_assoc, List.cons_append, List.cons_append,
        takeMembers_next name hvalue, hmembers, Option.map_some]
    · simp
    · simp

end

/-- **A well-formed value is read back from its text.** -/
theorem parse?_compact {v : Value} (h : v.WellFormed) :
    parse? (String.ofList v.compact) = some v := by
  have htake := take_compact v (2 * v.compact.length + 1) [] h (Nat.lt_succ_self _) closes_nil
  rw [List.append_nil] at htake
  rw [parse?, String.toList_ofList, ofChars?, htake]
  rfl

end SheetTemplate.Json.Value
