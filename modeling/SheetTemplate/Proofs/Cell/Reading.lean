import SheetTemplate.Proofs.Cell.Letters
import SheetTemplate.Proofs.Json.Values
import SheetTemplate.Proofs.Text.Runs
import SheetTemplate.Document.Model

/-!
# References read back

A reference is a column in letters and a row in digits, each with a mark in front where it is
absolute. Letters, digits and marks are told apart by their characters, so a text is cut in one way
only, and `ofChars_eq_ok_iff` says which texts are references. Those that are read lie on the
worksheet (`Reference.InSheet`), and every reference on the worksheet is read back from its text, in
any letter case (`ofChars_of_toUpper`) and with blanks around it (`parse_of_blanks`), and from a
document (`ofDocument?_document`).
-/

namespace SheetTemplate.Cell

/-! ### Letter case -/

theorem toUpper_of_not_isAlpha {c : Char} (h : c.isAlpha = false) : c.toUpper = c := by
  rw [Char.toUpper, dif_neg]
  intro hlower
  have halpha : c.isAlpha = true := by
    simp only [Char.isAlpha, Char.isLower, Bool.or_eq_true, Bool.and_eq_true, decide_eq_true_eq]
    exact .inr hlower
  rw [halpha] at h
  cases h

theorem isAlpha_toUpper (c : Char) : c.toUpper.isAlpha = c.isAlpha := by
  cases h : c.isAlpha with
  | false => rw [toUpper_of_not_isAlpha h, h]
  | true => exact forall_isAlpha (p := fun c => c.toUpper.isAlpha = true) (by decide +kernel) h

theorem letterRank_toUpper (c : Char) : letterRank c.toUpper = letterRank c := by
  cases h : c.isAlpha with
  | false => rw [toUpper_of_not_isAlpha h]
  | true =>
    exact forall_isAlpha (p := fun c => letterRank c.toUpper = letterRank c) (by decide +kernel) h

theorem columnValue_map_toUpper (cs : List Char) :
    columnValue (cs.map Char.toUpper) = columnValue cs := by
  simp only [columnValue, List.foldl_map, letterRank_toUpper]

theorem map_toUpper_of_not_isAlpha {cs : List Char} (h : ∀ c ∈ cs, c.isAlpha = false) :
    cs.map Char.toUpper = cs := by
  have hself : ∀ c ∈ cs, c.toUpper = id c := fun c hc => toUpper_of_not_isAlpha (h c hc)
  rw [List.map_congr_left hself, List.map_id]

/-- Letter case does not matter to what is no letter. -/
theorem eq_of_map_toUpper {cs ds : List Char} (h : cs.map Char.toUpper = ds)
    (hds : ∀ c ∈ ds, c.isAlpha = false) : cs = ds := by
  rw [← h, map_toUpper_of_not_isAlpha]
  intro c hc
  rw [← isAlpha_toUpper]
  exact hds _ (h ▸ List.mem_map_of_mem hc)

/-! ### Marks and rows -/

theorem mark_takeMark (cs : List Char) : mark (takeMark cs).1 ++ (takeMark cs).2 = cs := by
  unfold takeMark
  split <;> rfl

theorem takeMark_mark (absolute : Bool) {cs : List Char} (h : cs.head? ≠ some '$') :
    takeMark (mark absolute ++ cs) = (absolute, cs) := by
  cases absolute with
  | true => rfl
  | false =>
    rw [mark, if_neg Bool.false_ne_true, List.nil_append]
    unfold takeMark
    split
    · exact absurd rfl h
    · rfl

theorem isAlpha_of_mem_mark {absolute : Bool} {c : Char} (h : c ∈ mark absolute) :
    c.isAlpha = false := by
  cases absolute with
  | false => cases h
  | true =>
    obtain rfl := List.mem_singleton.1 h
    rfl

/-- **The texts of row numbers**: digits, with at most one `+` in front of them. -/
theorem rowOfDigits?_eq_some_iff {cs : List Char} {row : Nat} : rowOfDigits? cs = some row ↔
    ∃ ds, (cs = ds ∨ cs = '+' :: ds) ∧ ds ≠ [] ∧ (∀ c ∈ ds, c.isDigit = true) ∧
      Number.natOfDigits ds = row ∧ row ≤ maxCount := by
  -- what is read of the digits themselves
  have hdigits : ∀ ds : List Char,
      (if ds = [] || !ds.all Char.isDigit then none
        else if maxCount < Number.natOfDigits ds then none
        else some (Number.natOfDigits ds)) = some row ↔
      ds ≠ [] ∧ (∀ c ∈ ds, c.isDigit = true) ∧ Number.natOfDigits ds = row ∧ row ≤ maxCount := by
    intro ds
    rw [Option.ite_none_left_eq_some, Option.ite_none_left_eq_some, Option.some_inj]
    simp only [Bool.or_eq_true, decide_eq_true_eq, Bool.not_eq_true', not_or, Bool.not_eq_false,
      List.all_eq_true, not_lt, and_assoc]
    refine and_congr_right fun _ => and_congr_right fun _ => ⟨?_, ?_⟩
    · rintro ⟨hle, rfl⟩
      exact ⟨rfl, hle⟩
    · rintro ⟨rfl, hle⟩
      exact ⟨hle, rfl⟩
  unfold rowOfDigits?
  split
  · rename_i ds
    rw [hdigits]
    refine ⟨fun h => ⟨ds, .inr rfl, h⟩, ?_⟩
    rintro ⟨ds', rfl | hcons, hne, hall, hrow⟩
    · exact absurd (hall _ List.mem_cons_self) (by decide)
    · obtain rfl := (List.cons.inj hcons).2
      exact ⟨hne, hall, hrow⟩
  · rename_i hplus
    rw [hdigits]
    refine ⟨fun h => ⟨cs, .inl rfl, h⟩, ?_⟩
    rintro ⟨ds, rfl | hcons, h⟩
    · exact h
    · exact absurd hcons (hplus ds)

theorem rowOfDigits?_digitsOfNat {row : Nat} (h : row ≤ maxCount) :
    rowOfDigits? (Number.digitsOfNat row) = some row :=
  rowOfDigits?_eq_some_iff.2 ⟨_, .inl rfl, Nat.toDigits_ne_nil,
    fun _ => Number.isDigit_of_mem_digitsOfNat, Number.natOfDigits_digitsOfNat row, h⟩

/-- A row number starts with neither a mark nor a letter. -/
theorem head_of_rowOfDigits? {cs : List Char} {row : Nat} (h : rowOfDigits? cs = some row) :
    ∃ c ds, cs = c :: ds ∧ c ≠ '$' ∧ c.isAlpha = false := by
  obtain ⟨ds, hcs, hne, hall, -⟩ := rowOfDigits?_eq_some_iff.1 h
  rcases hcs with rfl | rfl
  · obtain ⟨d, ds, rfl⟩ := List.exists_cons_of_ne_nil hne
    have hd : d.isDigit = true := hall d List.mem_cons_self
    refine ⟨d, ds, rfl, ?_, not_isAlpha_of_isDigit hd⟩
    rintro rfl
    cases hd
  · exact ⟨'+', ds, rfl, by decide, rfl⟩

/-! ### Reading references -/

/-- Letters end in front of a row number and its mark. -/
theorem takeWhile_isAlpha_letters {letters digits : List Char} {row : Nat} (absolute : Bool)
    (hletters : ∀ c ∈ letters, c.isAlpha = true) (hrow : rowOfDigits? digits = some row) :
    (letters ++ (mark absolute ++ digits)).takeWhile Char.isAlpha = letters ∧
      (letters ++ (mark absolute ++ digits)).dropWhile Char.isAlpha = mark absolute ++ digits := by
  obtain ⟨d, ds, rfl, -, hd⟩ := head_of_rowOfDigits? hrow
  refine Text.takeWhile_append_of_ends hletters ?_
  cases absolute with
  | false => simp [mark, hd]
  | true => simp [mark]

/-- **Which texts are references**: letters of a column and digits of a row, each with a mark in
front where it is absolute. -/
theorem Reference.ofChars_eq_ok_iff {cs : List Char} {r : Reference} :
    ofChars cs = .ok r ↔ ∃ letters digits,
      cs = mark r.columnAbsolute ++ (letters ++ (mark r.rowAbsolute ++ digits)) ∧
      columnOfLetters letters = .ok r.column ∧ rowOfDigits? digits = some r.row ∧
      1 ≤ r.row ∧ r.row ≤ maxRow := by
  constructor
  · intro h
    refine ⟨(takeMark cs).2.takeWhile Char.isAlpha,
      (takeMark ((takeMark cs).2.dropWhile Char.isAlpha)).2, ?_⟩
    simp only [ofChars] at h
    split_ifs at h with hnil hletters hdigits
    · split at h
      · cases h
      · cases h
    · split at h
      · cases h
      · rename_i column hcolumn
        split at h
        · cases h
        · rename_i row hrow
          split_ifs at h with hbound
          obtain rfl := Except.ok.inj h
          obtain ⟨hpos, hle⟩ := not_or.1 hbound
          refine ⟨?_, hcolumn, hrow, Nat.one_le_iff_ne_zero.2 hpos, Nat.le_of_not_lt hle⟩
          rw [mark_takeMark, List.takeWhile_append_dropWhile, mark_takeMark]
  · rintro ⟨letters, digits, rfl, hcolumn, hrow, hpos, hle⟩
    obtain ⟨hne, halpha, -⟩ := columnOfLetters_eq_ok_iff.1 hcolumn
    obtain ⟨htake, hdrop⟩ := takeWhile_isAlpha_letters r.rowAbsolute halpha hrow
    obtain ⟨d, ds, hdigits, hmark, -⟩ := head_of_rowOfDigits? hrow
    have hfront : (letters ++ (mark r.rowAbsolute ++ digits)).head? ≠ some '$' := by
      obtain ⟨c, cs, rfl⟩ := List.exists_cons_of_ne_nil hne
      intro hhead
      obtain rfl := Option.some.inj hhead
      exact absurd (halpha _ List.mem_cons_self) (by decide)
    have hback : digits.head? ≠ some '$' := by
      rw [hdigits]
      exact fun hhead => hmark (Option.some.inj hhead)
    have hnil : mark r.columnAbsolute ++ (letters ++ (mark r.rowAbsolute ++ digits)) ≠ [] := by
      simp [hne]
    have hrest : digits ≠ [] := hdigits ▸ List.cons_ne_nil d ds
    have hbound : ¬ (r.row = 0 ∨ maxRow < r.row) := by omega
    simp only [ofChars, takeMark_mark _ hfront, htake, hdrop, takeMark_mark _ hback, if_neg hnil,
      if_neg hne, hcolumn, if_neg hrest, hrow, if_neg hbound]

/-- **Within the bounds of a worksheet, a word addresses the cell that it is read as.** -/
theorem addressed_of_ofChars {name : String} {r : Reference} (hword : Formula.IsWord name)
    (h : Reference.ofChars name.toList = .ok r) : addressed name = (r.column, r.row) := by
  obtain ⟨letters, digits, hname, hcolumn, hrow, -⟩ := Reference.ofChars_eq_ok_iff.1 h
  obtain ⟨-, halpha, hvalue, -⟩ := columnOfLetters_eq_ok_iff.1 hcolumn
  obtain ⟨ds, hds, -, -, hdigits, -⟩ := rowOfDigits?_eq_some_iff.1 hrow
  obtain ⟨htake, hdrop⟩ := takeWhile_isAlpha_letters r.rowAbsolute halpha hrow
  have hchar : ∀ c ∈ name.toList, Formula.isNameChar c = true := fun c => hword.isNameChar
  rw [hname] at hchar
  -- neither a mark nor a plus sign is a character of a word
  have hmark : ∀ absolute, (∀ c ∈ mark absolute, Formula.isNameChar c = true) →
      mark absolute = [] := by
    rintro (_ | _) hall
    · rfl
    · exact absurd (hall '$' List.mem_cons_self) (by decide)
  have hcolumnMark := hmark r.columnAbsolute fun c hc => hchar c (by simp [hc])
  have hrowMark := hmark r.rowAbsolute fun c hc => hchar c (by simp [hc])
  obtain rfl : digits = ds := hds.resolve_right <| by
    rintro rfl
    exact absurd (hchar '+' (by simp)) (by decide)
  rw [hcolumnMark, List.nil_append] at hname
  rw [addressed, hname, htake, hdrop, hrowMark, List.nil_append]
  exact Prod.ext hvalue hdigits

namespace Reference

/-- The cells of a worksheet. -/
structure InSheet (r : Reference) : Prop where
  column_pos : 1 ≤ r.column
  column_le : r.column ≤ maxColumn
  row_pos : 1 ≤ r.row
  row_le : r.row ≤ maxRow

/-- What is read lies on the worksheet. -/
theorem inSheet_of_ofChars {cs : List Char} {r : Reference} (h : ofChars cs = .ok r) :
    r.InSheet := by
  obtain ⟨letters, digits, -, hcolumn, -, hpos, hle⟩ := ofChars_eq_ok_iff.1 h
  obtain ⟨hne, -, hvalue, hbound⟩ := columnOfLetters_eq_ok_iff.1 hcolumn
  exact ⟨hvalue ▸ columnValue_pos hne, hbound, hpos, hle⟩

/-- **A reference on the worksheet is read back from its text**, in any letter case. -/
theorem ofChars_of_toUpper {r : Reference} (h : r.InSheet) {t : List Char}
    (ht : t.map Char.toUpper = r.chars) : ofChars t = .ok r := by
  simp only [chars, List.append_assoc] at ht
  obtain ⟨before, t, rfl, hbefore, ht⟩ := List.map_eq_append_iff.1 ht
  obtain ⟨letters, t, rfl, hletters, ht⟩ := List.map_eq_append_iff.1 ht
  obtain ⟨between, digits, rfl, hbetween, hdigits⟩ := List.map_eq_append_iff.1 ht
  obtain rfl := eq_of_map_toUpper hbefore fun _ => isAlpha_of_mem_mark
  obtain rfl := eq_of_map_toUpper hbetween fun _ => isAlpha_of_mem_mark
  obtain rfl := eq_of_map_toUpper hdigits fun c hc =>
    not_isAlpha_of_isDigit (Number.isDigit_of_mem_digitsOfNat hc)
  have hrow : r.row ≤ maxCount := by
    have hle := h.row_le
    simp only [maxRow, maxCount] at hle ⊢
    omega
  refine ofChars_eq_ok_iff.2 ⟨letters, _, rfl,
    columnOfLetters_eq_ok_iff.2 ⟨?_, ?_, ?_, h.column_le⟩,
    rowOfDigits?_digitsOfNat hrow, h.row_pos, h.row_le⟩
  · rintro rfl
    exact lettersOfColumn_ne_nil h.column_pos hletters.symm
  · intro c hc
    rw [← isAlpha_toUpper]
    exact isAlpha_of_mem_lettersOfColumn (hletters ▸ List.mem_map_of_mem hc)
  · rw [← columnValue_map_toUpper, hletters, columnValue_lettersOfColumn]

/-- The text of a reference has no small letters. -/
theorem map_toUpper_chars (r : Reference) : r.chars.map Char.toUpper = r.chars := by
  have hletters : (lettersOfColumn r.column).map Char.toUpper = lettersOfColumn r.column := by
    rw [← lettersOfColumn_columnValue fun c => isAlpha_of_mem_lettersOfColumn,
      columnValue_lettersOfColumn]
  have hdigits : ∀ c ∈ Number.digitsOfNat r.row, c.isAlpha = false :=
    fun c hc => not_isAlpha_of_isDigit (Number.isDigit_of_mem_digitsOfNat hc)
  simp only [chars, List.map_append, hletters, map_toUpper_of_not_isAlpha hdigits,
    map_toUpper_of_not_isAlpha fun _ => isAlpha_of_mem_mark]

/-- A reference has no blank in it. -/
theorem isBlank_of_mem {cs : List Char} {r : Reference} (h : ofChars cs = .ok r) {c : Char}
    (hc : c ∈ cs) : Text.isBlank c = false := by
  obtain ⟨letters, digits, rfl, hcolumn, hrow, -⟩ := ofChars_eq_ok_iff.1 h
  obtain ⟨-, halpha, -⟩ := columnOfLetters_eq_ok_iff.1 hcolumn
  obtain ⟨ds, hds, -, hall, -⟩ := rowOfDigits?_eq_some_iff.1 hrow
  have hmark : ∀ absolute, c ∈ mark absolute → Text.isBlank c = false := by
    rintro (_ | _) hmem
    · cases hmem
    · obtain rfl := List.mem_singleton.1 hmem
      rfl
  have hdigits : c ∈ digits → Text.isBlank c = false := by
    rcases hds with rfl | rfl
    · exact fun hmem => Text.isBlank_of_isDigit (hall c hmem)
    · intro hmem
      rcases List.mem_cons.1 hmem with rfl | hmem
      · rfl
      · exact Text.isBlank_of_isDigit (hall c hmem)
  simp only [List.mem_append] at hc
  rcases hc with hc | hc | hc | hc
  · exact hmark _ hc
  · exact forall_isAlpha (p := fun c => Text.isBlank c = false) (by decide +kernel) (halpha c hc)
  · exact hmark _ hc
  · exact hdigits hc

/-- Blanks around a reference do not matter. -/
theorem parse_of_blanks {front t back : List Char} {r : Reference}
    (hfront : ∀ c ∈ front, Text.isBlank c = true) (hback : ∀ c ∈ back, Text.isBlank c = true)
    (h : ofChars t = .ok r) : parse (String.ofList (front ++ t ++ back)) = .ok r := by
  have htrim : Text.trim t = t := Text.trim_eq_self
    (fun c hc => isBlank_of_mem h (List.mem_of_mem_head? hc))
    (fun c hc => isBlank_of_mem h (List.mem_of_mem_getLast? hc))
  rw [parse, String.toList_ofList, Text.trim_append hfront hback, htrim, h]

theorem parse_text {r : Reference} (h : r.InSheet) : parse r.text = .ok r := by
  have hnone : ∀ c ∈ ([] : List Char), Text.isBlank c = true := fun _ hc => by cases hc
  have hparse := parse_of_blanks hnone hnone (ofChars_of_toUpper h (map_toUpper_chars r))
  rwa [List.nil_append, List.append_nil] at hparse

/-! ### References in documents -/

/-- The reference that a document holds. -/
def ofDocument? (document : String) : Option Reference :=
  (Json.Value.parse? document).bind Document.readCell

/-- The document that holds a reference. -/
def document (r : Reference) : String := String.ofList (Document.writeCell r).compact

/-- A document with one string holds the reference that the string is read as. -/
theorem ofDocument?_ofString (s : String) :
    ofDocument? (String.ofList (Json.Value.ofString s).compact) = (parse s).toOption := by
  rw [ofDocument?, Json.Value.parse?_compact (Json.Value.wellFormed_ofString s)]
  rfl

theorem ofDocument?_document {r : Reference} (h : r.InSheet) : ofDocument? r.document = some r := by
  rw [document, Document.writeCell, ofDocument?_ofString, parse_text h]
  rfl

/-- A reference that is read off a value lies on the worksheet. -/
theorem inSheet_of_readCell {v : Json.Value} {r : Reference} (h : Document.readCell v = some r) :
    r.InSheet := by
  unfold Document.readCell at h
  split at h
  · rename_i s _
    cases hparse : parse s with
    | error e =>
      rw [hparse] at h
      cases h
    | ok r' =>
      rw [hparse] at h
      obtain rfl := Option.some.inj h
      exact inSheet_of_ofChars hparse
  · cases h

theorem inSheet_of_ofDocument? {document : String} {r : Reference}
    (h : ofDocument? document = some r) : r.InSheet := by
  obtain ⟨v, -, hread⟩ := Option.bind_eq_some_iff.1 h
  exact inSheet_of_readCell hread

/-- **References are read back as they are written**, from texts and from documents. Every reference
on the worksheet is read from its text in any letter case, with any blanks around it. What is read
lies on the worksheet, so its text is read as the same reference again. -/
theorem read_back (r : Reference) :
    (r.InSheet → ∀ front t back : List Char, (∀ c ∈ front, Text.isBlank c = true) →
      (∀ c ∈ back, Text.isBlank c = true) → t.map Char.toUpper = r.chars →
      parse (String.ofList (front ++ t ++ back)) = .ok r ∧
        ofDocument? (String.ofList
          (Json.Value.ofString (String.ofList (front ++ t ++ back))).compact) = some r) ∧
    (r.InSheet → parse r.text = .ok r ∧ ofDocument? r.document = some r) ∧
    (∀ s, parse s = .ok r → r.InSheet ∧ parse r.text = .ok r) ∧
    ∀ d, ofDocument? d = some r → r.InSheet ∧ ofDocument? r.document = some r := by
  refine ⟨?_, fun h => ⟨parse_text h, ofDocument?_document h⟩, ?_, ?_⟩
  · intro h front t back hfront hback ht
    have hparse := parse_of_blanks hfront hback (ofChars_of_toUpper h ht)
    refine ⟨hparse, ?_⟩
    rw [ofDocument?_ofString, hparse]
    rfl
  · intro s hs
    have h := inSheet_of_ofChars hs
    exact ⟨h, parse_text h⟩
  · intro d hd
    have h := inSheet_of_ofDocument? hd
    exact ⟨h, ofDocument?_document h⟩

/-- The last cell of a worksheet, between a no-break space and a line end and in documents. -/
theorem read_back_last : InSheet ⟨16384, 1048576, true, false⟩ ∧
    (∀ c ∈ ['\u00a0'], Text.isBlank c = true) ∧ (∀ c ∈ ['\n'], Text.isBlank c = true) ∧
    "$xfD1048576".toList.map Char.toUpper = chars ⟨16384, 1048576, true, false⟩ ∧
    parse "\u00a0$xfD1048576\n" = .ok ⟨16384, 1048576, true, false⟩ ∧
    ofDocument? (String.ofList (Json.Value.ofString "\u00a0$xfD1048576\n").compact) =
      some ⟨16384, 1048576, true, false⟩ ∧
    parse (text ⟨16384, 1048576, true, false⟩) = .ok ⟨16384, 1048576, true, false⟩ ∧
    ofDocument? (document ⟨16384, 1048576, true, false⟩) =
      some ⟨16384, 1048576, true, false⟩ := by
  obtain ⟨hread, hwritten, hparsed, hdocument⟩ := read_back ⟨16384, 1048576, true, false⟩
  have hsheet : InSheet ⟨16384, 1048576, true, false⟩ :=
    ⟨by decide, by decide, by decide, by decide⟩
  have hfront : ∀ c ∈ ['\u00a0'], Text.isBlank c = true := List.all_eq_true.1 rfl
  have hback : ∀ c ∈ ['\n'], Text.isBlank c = true := List.all_eq_true.1 rfl
  have hcapitals : "$xfD1048576".toList.map Char.toUpper =
      chars ⟨16384, 1048576, true, false⟩ := by
    decide +kernel
  obtain ⟨hparse, hstring⟩ := hread hsheet _ _ _ hfront hback hcapitals
  exact ⟨hsheet, hfront, hback, hcapitals, hparse, hstring, (hparsed _ hparse).2,
    (hdocument _ (hwritten hsheet).2).2⟩

end Reference

end SheetTemplate.Cell
