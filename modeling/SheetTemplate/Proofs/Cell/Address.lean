import SheetTemplate.Cell.Reference
import SheetTemplate.Proofs.Formula.Spelling

/-!
# The cell that a name addresses

The letters that a name starts with are a column and the digits behind them are a row. So the text
of a reference without marks addresses the cell of the reference (`addressed_text_relative`),
however far it is from the first cell of the worksheet. The mark of an absolute part does not matter
for the cell, and `unmarked` drops it.
-/

namespace SheetTemplate.Cell

open Formula (IsWord isNameStart isNameChar)

/-- The column that some letters spell, in the numerals to base 26 that have no zero. -/
def columnValue (cs : List Char) : Nat := cs.foldl (fun n c => n * 26 + letterRank c) 0

/-- The column and the row of the cell that a name addresses. -/
def addressed (name : String) : Nat × Nat :=
  (columnValue (name.toList.takeWhile Char.isAlpha),
    Number.natOfDigits (name.toList.dropWhile Char.isAlpha))

/-- A text without the marks of absolute references. -/
def unmarkedChars (cs : List Char) : List Char := cs.filter fun c => !(c == '$')

/-- A text without the marks of absolute references, as a string. -/
def unmarked (s : String) : String := String.ofList (unmarkedChars s.toList)

/-! ### Letters -/

theorem letterAt_spec : ∀ place < 26,
    (letterAt place).isAlpha = true ∧ letterRank (letterAt place) = place + 1 := by
  decide

theorem columnValue_concat (cs : List Char) (c : Char) :
    columnValue (cs ++ [c]) = columnValue cs * 26 + letterRank c := by
  rw [columnValue, List.foldl_append]
  rfl

/-- **The letters of a column spell it.** -/
theorem columnValue_lettersOfColumn (column : Nat) :
    columnValue (lettersOfColumn column) = column := by
  induction column using Nat.strong_induction_on with
  | _ column ih =>
    rw [lettersOfColumn]
    split_ifs with h
    · rw [h]
      rfl
    · have hplace : (column - 1) % 26 < 26 := Nat.mod_lt _ (by decide)
      rw [columnValue_concat, ih _ (by omega), (letterAt_spec _ hplace).2]
      omega

/-- Only letters of the alphabet are written. -/
theorem exists_letterAt_of_mem_lettersOfColumn {column : Nat} {c : Char}
    (h : c ∈ lettersOfColumn column) : ∃ place < 26, c = letterAt place := by
  induction column using Nat.strong_induction_on with
  | _ column ih =>
    rw [lettersOfColumn] at h
    split_ifs at h with h0
    · cases h
    · rcases List.mem_append.1 h with h | h
      · exact ih _ (by omega) h
      · exact ⟨(column - 1) % 26, Nat.mod_lt _ (by decide), List.mem_singleton.1 h⟩

theorem isAlpha_of_mem_lettersOfColumn {column : Nat} {c : Char}
    (h : c ∈ lettersOfColumn column) : c.isAlpha = true := by
  obtain ⟨place, hplace, rfl⟩ := exists_letterAt_of_mem_lettersOfColumn h
  exact (letterAt_spec place hplace).1

theorem lettersOfColumn_ne_nil {column : Nat} (h : 1 ≤ column) : lettersOfColumn column ≠ [] := by
  rw [lettersOfColumn, if_neg (by omega)]
  exact List.append_ne_nil_of_right_ne_nil _ (List.cons_ne_nil _ _)

theorem isNameStart_of_mem_lettersOfColumn {column : Nat} {c : Char}
    (h : c ∈ lettersOfColumn column) : isNameStart c = true := by
  rw [isNameStart, isAlpha_of_mem_lettersOfColumn h]
  rfl

theorem not_isAlpha_of_isDigit {c : Char} (h : c.isDigit = true) : c.isAlpha = false := by
  rw [Formula.isDigit_iff] at h
  have hname : isNameStart c = false := by
    rw [Bool.eq_false_iff, Ne, Formula.isNameStart_iff]
    rintro (h' | h' | rfl)
    · omega
    · omega
    · exact absurd h (by decide)
  rw [isNameStart, Bool.or_eq_false_iff] at hname
  exact hname.1

/-! ### Marks -/

theorem unmarkedChars_append (as bs : List Char) :
    unmarkedChars (as ++ bs) = unmarkedChars as ++ unmarkedChars bs := List.filter_append _ _

theorem unmarkedChars_cons {c : Char} (h : c ≠ '$') (cs : List Char) :
    unmarkedChars (c :: cs) = c :: unmarkedChars cs :=
  List.filter_cons_of_pos (by simpa using h)

theorem unmarkedChars_of_isNameChar {cs : List Char} (h : ∀ c ∈ cs, isNameChar c = true) :
    unmarkedChars cs = cs := by
  refine List.filter_eq_self.2 fun c hc => ?_
  have hne : c ≠ '$' := by
    rintro rfl
    exact absurd (h _ hc) (by decide)
  simpa using hne

/-! ### References -/

namespace Reference

theorem text_relative (column row : Nat) : (relative column row).text =
    String.ofList (lettersOfColumn column ++ Number.digitsOfNat row) := by
  simp [text, chars, relative, mark]

/-- The text of a reference without marks addresses its cell. -/
theorem addressed_text_relative (column row : Nat) :
    addressed (relative column row).text = (column, row) := by
  have hletters : ∀ c ∈ lettersOfColumn column, c.isAlpha = true :=
    fun c hc => isAlpha_of_mem_lettersOfColumn hc
  have hdigits : ∀ c ∈ Number.digitsOfNat row, c.isAlpha = false :=
    fun c hc => not_isAlpha_of_isDigit (Number.isDigit_of_mem_digitsOfNat hc)
  -- the letters end where the digits begin
  obtain ⟨htake, hdrop⟩ := Text.takeWhile_append_of_ends hletters
    fun c hc => hdigits c (List.mem_of_mem_head? hc)
  rw [text_relative, addressed, String.toList_ofList, htake, hdrop, columnValue_lettersOfColumn,
    Number.natOfDigits_digitsOfNat]

/-- The text of a reference without marks is a word of a formula. -/
theorem isWord_text_relative {column : Nat} (h : 1 ≤ column) (row : Nat) :
    IsWord (relative column row).text := by
  cases hletters : lettersOfColumn column with
  | nil => exact absurd hletters (lettersOfColumn_ne_nil h)
  | cons c cs =>
    have hstart : ∀ d ∈ lettersOfColumn column, isNameStart d = true :=
      fun d => isNameStart_of_mem_lettersOfColumn
    refine ⟨c, cs ++ Number.digitsOfNat row, ?_, hstart c (hletters ▸ List.mem_cons_self), ?_⟩
    · rw [text_relative, String.toList_ofList, hletters]
      rfl
    · intro d hd
      rw [Formula.isNameChar_iff]
      rcases List.mem_append.1 hd with hd | hd
      · exact .inr (hstart d (hletters ▸ List.mem_cons_of_mem _ hd))
      · exact .inl (Number.isDigit_of_mem_digitsOfNat hd)

/-- Without marks, the text of a reference is that of the relative one. -/
theorem unmarked_text (ref : Reference) :
    unmarked ref.text = (relative ref.column ref.row).text := by
  have hmark : ∀ absolute, unmarkedChars (mark absolute) = [] := by decide
  have hletters : unmarkedChars (lettersOfColumn ref.column) = lettersOfColumn ref.column :=
    unmarkedChars_of_isNameChar fun c hc =>
      Formula.isNameChar_iff.2 (.inr (isNameStart_of_mem_lettersOfColumn hc))
  have hdigits : unmarkedChars (Number.digitsOfNat ref.row) = Number.digitsOfNat ref.row :=
    unmarkedChars_of_isNameChar fun c hc =>
      Formula.isNameChar_iff.2 (.inl (Number.isDigit_of_mem_digitsOfNat hc))
  rw [text_relative, unmarked, text, String.toList_ofList, chars]
  simp only [unmarkedChars_append, hmark, hletters, hdigits, List.nil_append, List.append_nil]

end Reference

end SheetTemplate.Cell
