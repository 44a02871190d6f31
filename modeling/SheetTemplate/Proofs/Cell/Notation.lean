import SheetTemplate.Proofs.Cell.Reading

/-!
# A1 notation

A reference in A1 notation is letters and digits, each with a mark in front where that part is
absolute (`Reference.IsA1`). All these texts are read as the reference that they write, and beyond
them only those that have a `+` in front of the digits of the row (`parse_iff_isA1_or_signed`). So
the notation is met exactly wherever there is no such sign.
-/

namespace SheetTemplate.Cell.Reference

/-- The letters stand for the column of the reference, and the digits for its row. -/
structure HasParts (r : Reference) (letters digits : List Char) : Prop where
  letters_ne_nil : letters ≠ []
  isAlpha : ∀ c ∈ letters, c.isAlpha = true
  column_eq : numeralValue letters = r.column
  column_le : r.column ≤ maxColumn
  digits_ne_nil : digits ≠ []
  isDigit : ∀ c ∈ digits, c.isDigit = true
  row_eq : Number.natOfDigits digits = r.row
  row_pos : 1 ≤ r.row
  row_le : r.row ≤ maxRow

/-- The text writes the reference with some sign in front of the digits of its row. -/
def IsWritten (sign : List Char) (r : Reference) (cs : List Char) : Prop :=
  ∃ letters digits, r.HasParts letters digits ∧
    cs = mark r.columnAbsolute ++ letters ++ mark r.rowAbsolute ++ sign ++ digits

/-- The text writes the reference in A1 notation: an optional mark, letters, an optional mark and
digits, and nothing else. -/
def IsA1 (r : Reference) (cs : List Char) : Prop := r.IsWritten [] cs

/-- The text would be in A1 notation without the `+` in front of its row. -/
def IsSigned (r : Reference) (cs : List Char) : Prop := r.IsWritten ['+'] cs

variable {r : Reference} {cs letters digits : List Char}

theorem columnOfLetters_of_hasParts (h : r.HasParts letters digits) :
    columnOfLetters letters = .ok r.column :=
  columnOfLetters_eq_ok_iff.2 ⟨h.letters_ne_nil, h.isAlpha,
    (columnValue_eq_numeralValue h.isAlpha).trans h.column_eq, h.column_le⟩

theorem row_le_maxCount (h : r.row ≤ maxRow) : r.row ≤ maxCount := by
  simp only [maxRow, maxCount] at h ⊢
  omega

/-- **The texts that are read as a reference** are those in A1 notation and those with a sign. -/
theorem ofChars_iff_isA1_or_signed : ofChars cs = .ok r ↔ r.IsA1 cs ∨ r.IsSigned cs := by
  rw [ofChars_eq_ok_iff]
  constructor
  · rintro ⟨letters, row, rfl, hcolumn, hrow, hpos, hle⟩
    obtain ⟨hne, halpha, hvalue, hbound⟩ := columnOfLetters_eq_ok_iff.1 hcolumn
    obtain ⟨digits, hsign, hdne, hdigits, hnum, -⟩ := rowOfDigits?_eq_some_iff.1 hrow
    have hparts : r.HasParts letters digits :=
      ⟨hne, halpha, (columnValue_eq_numeralValue halpha).symm.trans hvalue, hbound, hdne, hdigits,
        hnum, hpos, hle⟩
    rcases hsign with rfl | rfl
    · exact .inl ⟨letters, row, hparts, by simp⟩
    · exact .inr ⟨letters, digits, hparts, by simp⟩
  · rintro (⟨letters, digits, h, rfl⟩ | ⟨letters, digits, h, rfl⟩)
    · refine ⟨letters, digits, by simp, columnOfLetters_of_hasParts h, ?_, h.row_pos, h.row_le⟩
      exact rowOfDigits?_eq_some_iff.2
        ⟨digits, .inl rfl, h.digits_ne_nil, h.isDigit, h.row_eq, row_le_maxCount h.row_le⟩
    · refine ⟨letters, '+' :: digits, by simp, columnOfLetters_of_hasParts h, ?_, h.row_pos,
        h.row_le⟩
      exact rowOfDigits?_eq_some_iff.2
        ⟨digits, .inr rfl, h.digits_ne_nil, h.isDigit, h.row_eq, row_le_maxCount h.row_le⟩

/-- A1 notation has no sign in it. -/
theorem IsA1.plus_notMem (h : r.IsA1 cs) : '+' ∉ cs := by
  obtain ⟨letters, digits, hparts, rfl⟩ := h
  have hmark : ∀ absolute, '+' ∉ mark absolute := by decide
  simp only [List.append_nil, List.mem_append, not_or]
  refine ⟨⟨⟨hmark _, fun hmem => ?_⟩, hmark _⟩, fun hmem => ?_⟩
  · exact absurd (hparts.isAlpha _ hmem) (by decide)
  · exact absurd (hparts.isDigit _ hmem) (by decide)

theorem IsSigned.plus_mem (h : r.IsSigned cs) : '+' ∈ cs := by
  obtain ⟨letters, digits, -, rfl⟩ := h
  simp

/-- **Which texts are references.** A text is read as a reference exactly where it writes this
reference, up to the blanks around it, in A1 notation or with a `+` in front of the row. So reading
accepts A1 notation and nothing else exactly for the references that the text does not write with a
sign, and for all of them where there is no `+` in the text. -/
theorem parse_iff_isA1_or_signed (s : String) (r : Reference) :
    (parse s = .ok r ↔ r.IsA1 (Text.trim s.toList) ∨ r.IsSigned (Text.trim s.toList)) ∧
    ((parse s = .ok r ↔ r.IsA1 (Text.trim s.toList)) ↔ ¬ r.IsSigned (Text.trim s.toList)) ∧
    ('+' ∉ s.toList → (parse s = .ok r ↔ r.IsA1 (Text.trim s.toList))) := by
  have hread : parse s = .ok r ↔ r.IsA1 (Text.trim s.toList) ∨ r.IsSigned (Text.trim s.toList) :=
    ofChars_iff_isA1_or_signed
  have hmet : (parse s = .ok r ↔ r.IsA1 (Text.trim s.toList)) ↔
      ¬ r.IsSigned (Text.trim s.toList) := by
    rw [hread, or_iff_left_iff_imp]
    -- the two ways of writing exclude each other
    exact ⟨fun h hsigned => (h hsigned).plus_notMem hsigned.plus_mem,
      fun h hsigned => absurd hsigned h⟩
  refine ⟨hread, hmet, fun hplus => hmet.2 fun hsigned => hplus ?_⟩
  exact Text.mem_of_mem_trim hsigned.plus_mem

/-- The last cell of a worksheet between blanks, with a small letter and a zero in front of its
row. -/
theorem parse_iff_isA1_or_signed_last :
    '+' ∉ "\u00a0$xFd$01048576\n".toList ∧
    parse "\u00a0$xFd$01048576\n" = .ok (absolute 16384 1048576) ∧
    (absolute 16384 1048576).IsA1 (Text.trim "\u00a0$xFd$01048576\n".toList) := by
  have hplus : '+' ∉ "\u00a0$xFd$01048576\n".toList := by decide
  have hread : parse "\u00a0$xFd$01048576\n" = .ok (absolute 16384 1048576) := by rfl
  exact ⟨hplus, hread, ((parse_iff_isA1_or_signed _ _).2.2 hplus).1 hread⟩

/-- The sign that the digits of a number may have is read in front of a row as well. -/
theorem not_readsA1Only_plus :
    parse "A+7" = .ok (relative 1 7) ∧ ∀ r : Reference, ¬ r.IsA1 (Text.trim "A+7".toList) := by
  refine ⟨by rfl, fun r h => h.plus_notMem ?_⟩
  decide

end SheetTemplate.Cell.Reference
