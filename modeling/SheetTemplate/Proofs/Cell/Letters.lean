import SheetTemplate.Proofs.Cell.Address
import Mathlib.Data.List.Shortlex
import Mathlib.Data.Nat.Digits.Defs

/-!
# Column letters as numerals

The letters of a column are its numeral to base 26, with the letters of the alphabet for the digits
1 to 26 and no digit for zero (`numeralValue`). Without a zero, every number has one numeral, and
more letters always count more.

* `numeralValue_lettersOfColumn` and `lettersOfColumn_columnValue`: writing and reading are inverse
  to each other, up to the case of the letters.
* `lt_iff_shortlex`: columns are ordered as their letters, the shorter ones first and letters of one
  length by the alphabet.
* `columnOfLetters_of_isAlpha` and `columnOfLetters_eq_ok_iff`: what letters are read as, and where.
  The cut at `maxCount` never lets a column in.
-/

namespace SheetTemplate.Cell

open Formula (isNameStart)

/-- The letters that stand for the digits 1 to 26. -/
def alphabet : List Char :=
  ['A', 'B', 'C', 'D', 'E', 'F', 'G', 'H', 'I', 'J', 'K', 'L', 'M',
    'N', 'O', 'P', 'Q', 'R', 'S', 'T', 'U', 'V', 'W', 'X', 'Y', 'Z']

/-- The number that letters in either case stand for, to base 26 with the digits 1 to 26. -/
def numeralValue (cs : List Char) : Nat :=
  Nat.ofDigits 26 (cs.reverse.map fun c => alphabet.idxOf c.toUpper + 1)

/-! ### Single letters -/

/-- What holds of the characters that have it below 128 holds of all letters. -/
theorem forall_isAlpha {p : Char → Prop}
    (h : ∀ n < 128, (Char.ofNat n).isAlpha = true → p (Char.ofNat n)) {c : Char}
    (hc : c.isAlpha = true) : p c := by
  have hstart : isNameStart c = true := by rw [isNameStart, hc]; rfl
  have hlt : c.toNat < 128 := by
    rw [Formula.isNameStart_iff] at hstart
    rcases hstart with h' | h' | rfl
    · omega
    · omega
    · decide
  rw [← Char.ofNat_toNat c] at hc ⊢
  exact h _ hlt hc

/-- A letter has a place in the alphabet in either case. -/
theorem idxOf_toUpper {c : Char} (h : c.isAlpha = true) :
    alphabet.idxOf c.toUpper + 1 = letterRank c :=
  forall_isAlpha (p := fun c => alphabet.idxOf c.toUpper + 1 = letterRank c) (by decide +kernel) h

theorem letterRank_le {c : Char} (h : c.isAlpha = true) : letterRank c ≤ 26 :=
  forall_isAlpha (p := fun c => letterRank c ≤ 26) (by decide +kernel) h

/-- A letter is the one at its place, in capitals. -/
theorem letterAt_letterRank {c : Char} (h : c.isAlpha = true) :
    letterAt (letterRank c - 1) = c.toUpper :=
  forall_isAlpha (p := fun c => letterAt (letterRank c - 1) = c.toUpper) (by decide +kernel) h

theorem letterAt_mem_alphabet : ∀ place < 26, letterAt place ∈ alphabet := by decide

theorem letterAt_lt_letterAt : ∀ place < 26, ∀ before < place,
    letterAt before < letterAt place := by
  decide

theorem letterRank_pos (c : Char) : 1 ≤ letterRank c := Nat.succ_pos _

/-! ### The value of letters -/

theorem columnValue_eq_numeralValue {cs : List Char} (h : ∀ c ∈ cs, c.isAlpha = true) :
    columnValue cs = numeralValue cs := by
  induction cs using List.reverseRecOn with
  | nil => rfl
  | append_singleton cs c ih =>
    have hcs : ∀ d ∈ cs, d.isAlpha = true := fun d hd => h d (List.mem_append_left _ hd)
    have hc : c.isAlpha = true := h c (List.mem_append_right _ List.mem_cons_self)
    rw [columnValue_concat, ih hcs, numeralValue, numeralValue, List.reverse_concat,
      List.map_cons, Nat.ofDigits_cons, idxOf_toUpper hc]
    omega

/-- **The numeral of a column.** -/
theorem numeralValue_lettersOfColumn (column : Nat) :
    numeralValue (lettersOfColumn column) = column := by
  rw [← columnValue_eq_numeralValue fun c => isAlpha_of_mem_lettersOfColumn,
    columnValue_lettersOfColumn]

theorem mem_alphabet_of_mem_lettersOfColumn {column : Nat} {c : Char}
    (h : c ∈ lettersOfColumn column) : c ∈ alphabet := by
  obtain ⟨place, hplace, rfl⟩ := exists_letterAt_of_mem_lettersOfColumn h
  exact letterAt_mem_alphabet place hplace

/-- **Letters are the ones of the column that they spell**, in capitals. -/
theorem lettersOfColumn_columnValue {cs : List Char} (h : ∀ c ∈ cs, c.isAlpha = true) :
    lettersOfColumn (columnValue cs) = cs.map Char.toUpper := by
  induction cs using List.reverseRecOn with
  | nil => decide +kernel
  | append_singleton cs c ih =>
    have hcs : ∀ d ∈ cs, d.isAlpha = true := fun d hd => h d (List.mem_append_left _ hd)
    have hc : c.isAlpha = true := h c (List.mem_append_right _ List.mem_cons_self)
    have hpos := letterRank_pos c
    have hle := letterRank_le hc
    -- a digit from 1 to 26 is taken off again by one step of the division
    have hrest : (columnValue cs * 26 + letterRank c - 1) / 26 = columnValue cs := by omega
    have hlast : (columnValue cs * 26 + letterRank c - 1) % 26 = letterRank c - 1 := by omega
    rw [columnValue_concat, lettersOfColumn, if_neg (by omega), hrest, hlast, ih hcs,
      letterAt_letterRank hc, List.map_append, List.map_singleton]

theorem columnValue_pos {cs : List Char} (h : cs ≠ []) : 1 ≤ columnValue cs := by
  have hpos := letterRank_pos (cs.getLast h)
  rw [← List.dropLast_concat_getLast h, columnValue_concat]
  omega

theorem lettersOfColumn_injective : Function.Injective lettersOfColumn :=
  Function.LeftInverse.injective columnValue_lettersOfColumn

/-! ### The order of columns -/

/-- The last letter of a column is a digit of its own. -/
theorem lettersOfColumn_of_pos {column : Nat} (h : 1 ≤ column) : lettersOfColumn column =
    lettersOfColumn ((column - 1) / 26) ++ [letterAt ((column - 1) % 26)] := by
  rw [lettersOfColumn, if_neg (by omega)]

theorem lex_concat {as bs : List Char} (h : List.Lex (· < ·) as bs)
    (hlength : as.length = bs.length) (a b : Char) : List.Lex (· < ·) (as ++ [a]) (bs ++ [b]) := by
  induction h with
  | nil => cases hlength
  | rel hlt => exact .rel hlt
  | cons _ ih => exact .cons (ih (Nat.succ.inj hlength))

/-- A last letter more on both sides does not change their order. -/
theorem shortlex_concat {as bs : List Char} (h : List.Shortlex (· < ·) as bs) (a b : Char) :
    List.Shortlex (· < ·) (as ++ [a]) (bs ++ [b]) := by
  rcases List.shortlex_def.1 h with hlt | ⟨heq, hlex⟩
  · exact .of_length_lt (by simpa using hlt)
  · exact .of_lex (by simpa using heq) (lex_concat hlex heq a b)

theorem shortlex_lettersOfColumn {m n : Nat} (h : m < n) :
    List.Shortlex (· < ·) (lettersOfColumn m) (lettersOfColumn n) := by
  induction n using Nat.strong_induction_on generalizing m with
  | _ n ih =>
    rcases Nat.eq_zero_or_pos m with rfl | hm
    · refine .of_length_lt ?_
      rw [lettersOfColumn, if_pos rfl]
      exact List.length_pos_iff.2 (lettersOfColumn_ne_nil h)
    · rw [lettersOfColumn_of_pos hm, lettersOfColumn_of_pos (by omega : 1 ≤ n)]
      -- either the letters in front differ, or the last ones do
      rcases Nat.lt_or_ge ((m - 1) / 26) ((n - 1) / 26) with hlt | hge
      · exact shortlex_concat (ih _ (by omega) hlt) _ _
      · have hfront : (m - 1) / 26 = (n - 1) / 26 := by omega
        rw [hfront]
        refine List.Shortlex.append_left ?_ _
        rw [List.shortlex_singleton_iff]
        exact letterAt_lt_letterAt _ (Nat.mod_lt _ (by decide)) _ (by omega)

/-- **Columns are ordered as their letters**, the shorter ones first. -/
theorem lt_iff_shortlex {m n : Nat} :
    m < n ↔ List.Shortlex (· < ·) (lettersOfColumn m) (lettersOfColumn n) := by
  refine ⟨shortlex_lettersOfColumn, fun h => ?_⟩
  rcases Nat.lt_trichotomy m n with hlt | rfl | hgt
  · exact hlt
  · exact absurd h (Std.Asymm.asymm _ _ h)
  · exact absurd h (Std.Asymm.asymm _ _ (shortlex_lettersOfColumn hgt))

/-! ### Reading letters -/

/-- A count that is cut at every letter is the count cut at the end. -/
theorem foldl_addLetter (cs : List Char) (n : Nat) : cs.foldl addLetter (min n maxCount) =
    min (cs.foldl (fun n c => n * 26 + letterRank c) n) maxCount := by
  induction cs generalizing n with
  | nil => rfl
  | cons c cs ih =>
    have hstep : addLetter (min n maxCount) c = min (n * 26 + letterRank c) maxCount := by
      simp only [addLetter, maxCount]
      omega
    rw [List.foldl_cons, hstep, ih, List.foldl_cons]

theorem columnOfLetters_of_isAlpha {cs : List Char} (hne : cs ≠ [])
    (h : ∀ c ∈ cs, c.isAlpha = true) : columnOfLetters cs =
      if maxColumn < columnValue cs then
        .error (.columnOutOfBounds (min (columnValue cs) maxCount))
      else .ok (columnValue cs) := by
  have hfind : cs.find? (fun c => !c.isAlpha) = none := by
    simpa [List.find?_eq_none] using h
  have hcount : cs.foldl addLetter 0 = min (columnValue cs) maxCount := foldl_addLetter cs 0
  have hbound : maxColumn < min (columnValue cs) maxCount ↔ maxColumn < columnValue cs := by
    simp only [maxColumn, maxCount]
    omega
  rw [columnOfLetters, if_neg hne, hfind]
  simp only [hcount, hbound]
  split_ifs with hlarge
  · rfl
  · simp only [maxColumn, maxCount] at hlarge ⊢
    rw [Nat.min_eq_left (by omega)]

/-- **Where letters are read, and as what.** -/
theorem columnOfLetters_eq_ok_iff {cs : List Char} {column : Nat} :
    columnOfLetters cs = .ok column ↔ cs ≠ [] ∧ (∀ c ∈ cs, c.isAlpha = true) ∧
      columnValue cs = column ∧ column ≤ maxColumn := by
  constructor
  · intro h
    have hne : cs ≠ [] := by
      rintro rfl
      cases h
    have halpha : ∀ c ∈ cs, c.isAlpha = true := by
      cases hfind : cs.find? (fun c => !c.isAlpha) with
      | none => simpa [List.find?_eq_none] using hfind
      | some c =>
        rw [columnOfLetters, if_neg hne, hfind] at h
        cases h
    rw [columnOfLetters_of_isAlpha hne halpha] at h
    split_ifs at h with hlarge
    obtain rfl := Except.ok.inj h
    exact ⟨hne, halpha, rfl, Nat.le_of_not_lt hlarge⟩
  · rintro ⟨hne, halpha, rfl, hle⟩
    rw [columnOfLetters_of_isAlpha hne halpha, if_neg (Nat.not_lt.2 hle)]

theorem columnOfLetters_lettersOfColumn {column : Nat} (h : 1 ≤ column) (hle : column ≤ maxColumn) :
    columnOfLetters (lettersOfColumn column) = .ok column :=
  columnOfLetters_eq_ok_iff.2 ⟨lettersOfColumn_ne_nil h,
    fun _ => isAlpha_of_mem_lettersOfColumn, columnValue_lettersOfColumn column, hle⟩

/-- **Column letters are numerals to base 26 without a zero.** Every column from 1 on is written
with its numeral, in capitals, and columns are ordered as their letters. Letters are read in either
case as the number that they stand for, up to the last column of a worksheet; those of a later
column are refused with this number, which is cut at `maxCount`. So what is written is read again,
and what is read is written again in capitals. -/
theorem letters_numerals :
    (∀ n, 1 ≤ n → lettersOfColumn n ≠ [] ∧ (∀ c ∈ lettersOfColumn n, c ∈ alphabet) ∧
      numeralValue (lettersOfColumn n) = n) ∧
    (∀ m n, m ≠ n → lettersOfColumn m ≠ lettersOfColumn n) ∧
    (∀ m n, m < n ↔ List.Shortlex (· < ·) (lettersOfColumn m) (lettersOfColumn n)) ∧
    (∀ cs n, columnOfLetters cs = .ok n ↔ cs ≠ [] ∧ (∀ c ∈ cs, c.isAlpha = true) ∧
      numeralValue cs = n ∧ n ≤ maxColumn) ∧
    (∀ cs, (∀ c ∈ cs, c.isAlpha = true) → maxColumn < numeralValue cs →
      columnOfLetters cs = .error (.columnOutOfBounds (min (numeralValue cs) maxCount))) ∧
    (∀ n, 1 ≤ n → n ≤ maxColumn → columnOfLetters (lettersOfColumn n) = .ok n) ∧
    ∀ cs n, columnOfLetters cs = .ok n → lettersOfColumn n = cs.map Char.toUpper := by
  refine ⟨fun n hn => ?_, fun m n => lettersOfColumn_injective.ne, fun m n => lt_iff_shortlex,
    fun cs n => ?_, fun cs halpha hlarge => ?_, fun n => columnOfLetters_lettersOfColumn,
    fun cs n h => ?_⟩
  · exact ⟨lettersOfColumn_ne_nil hn, fun c => mem_alphabet_of_mem_lettersOfColumn,
      numeralValue_lettersOfColumn n⟩
  · rw [columnOfLetters_eq_ok_iff]
    refine and_congr_right fun _ => and_congr_right fun halpha => ?_
    rw [columnValue_eq_numeralValue halpha]
  · have hne : cs ≠ [] := by
      rintro rfl
      cases hlarge
    rw [← columnValue_eq_numeralValue halpha] at hlarge ⊢
    rw [columnOfLetters_of_isAlpha hne halpha, if_pos hlarge]
  · obtain ⟨-, halpha, rfl, -⟩ := columnOfLetters_eq_ok_iff.1 h
    exact lettersOfColumn_columnValue halpha

/-- The first column with three letters, the last column of a worksheet and the one behind it, and
letters whose column is cut. -/
theorem letters_numerals_bounds :
    (lettersOfColumn 703 ≠ [] ∧ (∀ c ∈ lettersOfColumn 703, c ∈ alphabet) ∧
      numeralValue (lettersOfColumn 703) = 703) ∧
    lettersOfColumn 702 ≠ lettersOfColumn 703 ∧
    (702 < 703 ↔ List.Shortlex (· < ·) (lettersOfColumn 702) (lettersOfColumn 703)) ∧
    (columnOfLetters ['x', 'F', 'd'] = .ok 16384 ∧
      lettersOfColumn 16384 = ['x', 'F', 'd'].map Char.toUpper) ∧
    ((∀ c ∈ ['x', 'F', 'e'], c.isAlpha = true) ∧ maxColumn < numeralValue ['x', 'F', 'e'] ∧
      columnOfLetters ['x', 'F', 'e'] = .error (.columnOutOfBounds 16385)) ∧
    ((∀ c ∈ List.replicate 8 'Z', c.isAlpha = true) ∧
      maxColumn < numeralValue (List.replicate 8 'Z') ∧
      columnOfLetters (List.replicate 8 'Z') = .error (.columnOutOfBounds maxCount)) ∧
    columnOfLetters (lettersOfColumn 703) = .ok 703 := by
  obtain ⟨hwritten, hdistinct, horder, hread, hrefused, hback, hcapitals⟩ := letters_numerals
  have hlast : columnOfLetters ['x', 'F', 'd'] = .ok 16384 := by rfl
  have hletters : ∀ c ∈ ['x', 'F', 'e'], c.isAlpha = true := List.all_eq_true.1 rfl
  have hlong : ∀ c ∈ List.replicate 8 'Z', c.isAlpha = true := List.all_eq_true.1 rfl
  have hnext : numeralValue ['x', 'F', 'e'] = 16385 := by
    rw [← columnValue_eq_numeralValue hletters]
    rfl
  have hcut : numeralValue (List.replicate 8 'Z') = 217180147158 := by
    rw [← columnValue_eq_numeralValue hlong]
    rfl
  refine ⟨hwritten 703 (by decide), hdistinct 702 703 (by decide), horder 702 703,
    ⟨hlast, hcapitals _ _ hlast⟩, ?_, ?_, hback 703 (by decide) (by decide)⟩
  · have hlarge : maxColumn < numeralValue ['x', 'F', 'e'] := by rw [hnext]; decide
    refine ⟨hletters, hlarge, ?_⟩
    rw [hrefused _ hletters hlarge, hnext]
    rfl
  · have hlarge : maxColumn < numeralValue (List.replicate 8 'Z') := by rw [hcut]; decide
    refine ⟨hlong, hlarge, ?_⟩
    rw [hrefused _ hlong hlarge, hcut]
    rfl

end SheetTemplate.Cell
