import SheetTemplate.Proofs.Row.Decimals

/-!
# Units behind a number

A text that is read as a whole has digits, signs and separators only (`isNumeric_of_readsWhole`), so
with a blank in it a text is read by its front. What cannot stand in a decimal ends the decimal that
a text starts with (`decimal?_leadingNumber_append`). So a plain decimal keeps its number when a
unit is put behind it, and of a decimal with a comma and of a clock time the part in front of the
comma or of the first colon remains (`toNumber_withUnit`).
-/

namespace SheetTemplate.Row

open Text (isBlank trim)

variable {cs as bs front back part : List Char} {b c sep : Char} {x : Float}

/-! ### Texts that are read as a whole -/

/-- The text is a plain decimal, a clock time or a decimal with a decimal comma. -/
def ReadsWhole (cs : List Char) : Prop :=
  (decimal? cs).isSome = true ∨ (clockTime? cs).isSome = true ∨ (commaDecimal? cs).isSome = true

/-- The characters of plain decimals. -/
def isDecimalChar (c : Char) : Bool := c.isDigit || c = '-' || c = '+' || c = '.'

/-- The characters of texts that are read as a whole. -/
def isNumeric (c : Char) : Bool := isDecimalChar c || c = ',' || c = ':'

theorem isBlank_of_isNumeric (h : isNumeric c = true) : isBlank c = false := by
  rw [Bool.eq_false_iff]
  intro hblank
  simp only [isNumeric, isDecimalChar, Bool.or_eq_true, decide_eq_true_eq] at h
  rcases h with ((((h | rfl) | rfl) | rfl) | rfl) | rfl
  · rw [Text.isBlank_of_isDigit h] at hblank
    cases hblank
  all_goals cases hblank

theorem isDecimalChar_of_isSome (h : (decimal? cs).isSome = true) (hc : c ∈ cs) :
    isDecimalChar c = true := by
  obtain ⟨-, hall, -⟩ := isSome_decimal?_iff.1 h
  rw [← takeSign_append cs] at hc
  rcases List.mem_append.1 hc with hc | hc
  · have hsign : ∀ sign ∈ signs, ∀ c ∈ sign, isDecimalChar c = true := by
      simp [signs, isDecimalChar]
    exact hsign _ (takeSign_mem cs) c hc
  · rcases hall c hc with hdigit | rfl
    · simp [isDecimalChar, hdigit]
    · rfl

theorem splitAt_of_notMem (h : sep ∉ cs) : splitAt sep cs = [cs] := by
  induction cs with
  | nil => rfl
  | cons c cs ih =>
    obtain ⟨hc, hcs⟩ := not_or.1 (List.mem_cons.not.1 h)
    rw [splitAt, if_neg (Ne.symm hc), ih hcs]

/-- Every character of a text is a separator or stands in one of its parts. -/
theorem mem_splitAt (hc : c ∈ cs) : c = sep ∨ ∃ part ∈ splitAt sep cs, c ∈ part := by
  induction cs with
  | nil => cases hc
  | cons d cs ih =>
    rw [splitAt]
    split_ifs with hd
    · rcases List.mem_cons.1 hc with rfl | hc
      · exact .inl hd
      · exact (ih hc).imp_right fun ⟨part, hpart, hmem⟩ =>
          ⟨part, List.mem_cons_of_mem _ hpart, hmem⟩
    · split
      · rename_i hnil
        rcases List.mem_cons.1 hc with rfl | hc
        · exact .inr ⟨[c], List.mem_cons_self, List.mem_cons_self⟩
        · rw [hnil] at ih
          exact (ih hc).imp_right fun ⟨part, hpart, _⟩ => by cases hpart
      · rename_i part parts hsplit
        rcases List.mem_cons.1 hc with rfl | hc
        · exact .inr ⟨_, List.mem_cons_self, List.mem_cons_self⟩
        · rw [hsplit] at ih
          refine (ih hc).imp_right fun ⟨p, hp, hmem⟩ => ?_
          rcases List.mem_cons.1 hp with rfl | hp
          · exact ⟨_, List.mem_cons_self, List.mem_cons_of_mem _ hmem⟩
          · exact ⟨p, List.mem_cons_of_mem _ hp, hmem⟩

/-- A clock time is digits and colons, of which there is one. -/
theorem of_isSome_clockTime? (h : (clockTime? cs).isSome = true) :
    ':' ∈ cs ∧ ∀ c ∈ cs, c.isDigit = true ∨ c = ':' := by
  simp only [clockTime?] at h
  split_ifs at h with hall
  swap
  · cases h
  simp only [List.all_eq_true, Bool.and_eq_true] at hall
  refine ⟨?_, fun c hc => ?_⟩
  · by_contra hcolon
    rw [splitAt_of_notMem hcolon] at h
    cases h
  · rcases @mem_splitAt _ _ ':' hc with rfl | ⟨part, hpart, hmem⟩
    · exact .inr rfl
    · exact .inl ((hall part hpart).2 c hmem)

theorem mem_commaToPoint (hc : c ∈ cs) : c = ',' ∨ c ∈ commaToPoint cs := by
  induction cs with
  | nil => cases hc
  | cons d cs ih =>
    rw [commaToPoint]
    split_ifs with hd
    · rcases List.mem_cons.1 hc with rfl | hc
      · exact .inl hd
      · exact .inr (List.mem_cons_of_mem _ hc)
    · rcases List.mem_cons.1 hc with rfl | hc
      · exact .inr List.mem_cons_self
      · exact (ih hc).imp_right (List.mem_cons_of_mem _)

/-- A decimal with a comma has the characters of decimals besides. -/
theorem of_isSome_commaDecimal? (h : (commaDecimal? cs).isSome = true) :
    ',' ∈ cs ∧ ∀ c ∈ cs, isDecimalChar c = true ∨ c = ',' := by
  rw [commaDecimal?] at h
  split_ifs at h with htest
  swap
  · cases h
  simp only [Bool.and_eq_true, List.contains_iff_mem] at htest
  refine ⟨htest.1, fun c hc => ?_⟩
  exact ((mem_commaToPoint hc).imp_right (isDecimalChar_of_isSome h)).symm

/-- **A text that is read as a whole** has digits, signs and separators only. -/
theorem isNumeric_of_readsWhole (h : ReadsWhole cs) (hc : c ∈ cs) : isNumeric c = true := by
  rcases h with h | h | h
  · simp [isNumeric, isDecimalChar_of_isSome h hc]
  · rcases (of_isSome_clockTime? h).2 c hc with hdigit | rfl
    · simp [isNumeric, isDecimalChar, hdigit]
    · rfl
  · rcases (of_isSome_commaDecimal? h).2 c hc with hdecimal | rfl
    · simp [isNumeric, hdecimal]
    · rfl

/-- Any other text is read by its front, and so is a plain decimal. -/
theorem numberOfChars_of_not_readsWhole (h : ¬ ReadsWhole cs) :
    numberOfChars cs = (decimal? (leadingNumber cs)).getD 0 := by
  obtain ⟨-, h⟩ := not_or.1 h
  obtain ⟨hclock, hcomma⟩ := not_or.1 h
  exact numberOfChars_eq (Option.not_isSome_iff_eq_none.1 hclock)
    (Option.not_isSome_iff_eq_none.1 hcomma)

/-! ### What ends a decimal -/

/-- The decimal at the front of a text depends on the decimals among its front parts only. -/
theorem decimal?_leadingNumber_congr
    (h : ∀ q, (decimal? q).isSome = true → (q <+: as ↔ q <+: bs)) :
    decimal? (leadingNumber as) = decimal? (leadingNumber bs) := by
  by_cases hsome : ∃ q, q <+: as ∧ (decimal? q).isSome = true
  · obtain ⟨q, hq, hdecimal⟩ := hsome
    have hlongest := isLongestDecimal_decimalFront hq hdecimal
    have hother : IsLongestDecimal (decimalFront as) bs :=
      ⟨(h _ hlongest.isSome).1 hlongest.isPrefix, hlongest.isSome,
        fun p hp hp' => hlongest.length_le p ((h p hp').2 hp) hp'⟩
    rw [decimal?_leadingNumber_of_longest hlongest, decimal?_leadingNumber_of_longest hother]
  · have hnone : ∀ q, q <+: as ∨ q <+: bs → decimal? q = none := by
      intro q hq
      refine Option.not_isSome_iff_eq_none.1 fun hdecimal => hsome ⟨q, ?_, hdecimal⟩
      exact hq.elim id (h q hdecimal).2
    rw [decimal?_leadingNumber, decimal?_leadingNumber, hnone _ (.inl (decimalFront_isPrefix as)),
      hnone _ (.inr (decimalFront_isPrefix bs))]

/-- **What cannot stand in a decimal ends the decimal at the front of a text.** -/
theorem decimal?_leadingNumber_append (hc : isDecimalChar c = false) (front back : List Char) :
    decimal? (leadingNumber (front ++ c :: back)) = decimal? (leadingNumber front) := by
  refine decimal?_leadingNumber_congr fun q hq => Text.prefix_iff_of_notMem (fun hmem => ?_) back
  rw [isDecimalChar_of_isSome hq hmem] at hc
  cases hc

/-! ### Units -/

/-- The text with a unit behind it. -/
def withUnit (d u : String) : String := d ++ " " ++ u

/-- The part of a text in front of a character, without the blanks around the text. -/
def partBefore (c : Char) (d : String) : String :=
  String.ofList ((trim d.toList).takeWhile (· != c))

theorem toList_withUnit (d u : String) : (withUnit d u).toList = d.toList ++ ' ' :: u.toList := by
  simp [withUnit]

/-- Blanks are no unit. -/
theorem trim_withUnit_of_blank {u : String} (h : ∀ c ∈ u.toList, isBlank c = true) (d : String) :
    trim (withUnit d u).toList = trim d.toList := by
  have hback : ∀ c ∈ ' ' :: u.toList, isBlank c = true := by
    intro c hc
    rcases List.mem_cons.1 hc with rfl | hc
    · rfl
    · exact h c hc
  have hfront : ∀ c ∈ ([] : List Char), isBlank c = true := nofun
  have htrim := Text.trim_append hfront hback d.toList
  rwa [List.nil_append, ← toList_withUnit] at htrim

/-- A unit stands behind the text and a blank. -/
theorem exists_trim_withUnit {d u : String} (hd : ∃ c ∈ (trim d.toList).head?, isBlank c = false)
    (hu : ∃ c ∈ u.toList, isBlank c = false) : ∃ b rest, isBlank b = true ∧
      trim (withUnit d u).toList = trim d.toList ++ b :: rest := by
  obtain ⟨front, back, hfront, hback, hsplit⟩ := Text.exists_eq_append_trim d.toList
  have htext : (withUnit d u).toList = front ++ trim d.toList ++ (back ++ ' ' :: u.toList) := by
    rw [toList_withUnit, ← List.append_assoc, ← hsplit]
  obtain ⟨c, hc, hcb⟩ := hu
  have hend : ∃ c ∈ back ++ ' ' :: u.toList, isBlank c = false := ⟨c, by simp [hc], hcb⟩
  obtain ⟨rest, htrim, hne, hrest⟩ := Text.exists_trim_append hfront hd hend
  obtain ⟨b, rest, rfl⟩ := List.exists_cons_of_ne_nil hne
  refine ⟨b, rest, ?_, by rw [htext, htrim]⟩
  -- the first character behind the text is one of its blanks or the one in front of the unit
  cases back with
  | nil =>
    obtain rfl := (List.cons_prefix_cons.1 hrest).1
    rfl
  | cons e back =>
    obtain rfl := (List.cons_prefix_cons.1 hrest).1
    exact hback _ List.mem_cons_self

theorem exists_head_of_readsWhole (h : ReadsWhole cs) : ∃ c ∈ cs.head?, isBlank c = false := by
  cases cs with
  | nil => rcases h with h | h | h <;> cases h
  | cons c cs => exact ⟨c, rfl, isBlank_of_isNumeric (isNumeric_of_readsWhole h List.mem_cons_self)⟩

/-- **With a unit behind it, a text is read by its front.** -/
theorem rawNumber_withUnit {d u : String} (h : ReadsWhole (trim d.toList))
    (hu : ∃ c ∈ u.toList, isBlank c = false) : (Value.text (withUnit d u)).rawNumber =
      (decimal? (leadingNumber (trim d.toList))).getD 0 := by
  obtain ⟨b, rest, hb, htrim⟩ := exists_trim_withUnit (exists_head_of_readsWhole h) hu
  have hblank : isNumeric b = false := Bool.eq_false_iff.2 fun hnum => by
    rw [isBlank_of_isNumeric hnum] at hb
    cases hb
  have hwhole : ¬ ReadsWhole (trim d.toList ++ b :: rest) := fun hread => by
    rw [isNumeric_of_readsWhole hread (List.mem_append_right _ List.mem_cons_self)] at hblank
    cases hblank
  have hdecimal : isDecimalChar b = false := by
    simp only [isNumeric, Bool.or_eq_false_iff] at hblank
    exact hblank.1.1
  show numberOfChars (trim (withUnit d u).toList) = _
  rw [htrim, numberOfChars_of_not_readsWhole hwhole, decimal?_leadingNumber_append hdecimal]

/-- A text with a separator is its part in front of the first one, and the rest. -/
theorem exists_eq_takeWhile_append (h : c ∈ cs) :
    ∃ back, cs = cs.takeWhile (· != c) ++ c :: back := by
  have hsplit := List.takeWhile_append_dropWhile (p := (· != c)) (l := cs)
  have hend := List.head?_dropWhile_not (· != c) cs
  cases hdrop : cs.dropWhile (· != c) with
  | nil =>
    rw [hdrop, List.append_nil] at hsplit
    rw [← hsplit] at h
    exact absurd (List.all_eq_true.1 List.all_takeWhile c h) (by simp)
  | cons e back =>
    rw [hdrop] at hend hsplit
    obtain rfl : e = c := by simpa using hend
    exact ⟨back, hsplit.symm⟩

/-- The part in front of a separator is read as the number that the whole text starts with. -/
theorem rawNumber_partBefore {d : String} (hc : isDecimalChar c = false) (hmem : c ∈ trim d.toList)
    (hchars : ∀ e ∈ trim d.toList, isDecimalChar e = true ∨ e = c) :
    (Value.text (partBefore c d)).rawNumber =
      (decimal? (leadingNumber (trim d.toList))).getD 0 := by
  obtain ⟨back, hback⟩ := exists_eq_takeWhile_append hmem
  obtain ⟨part, hpart⟩ : ∃ part, part = (trim d.toList).takeWhile (· != c) := ⟨_, rfl⟩
  have hdecimal : ∀ e ∈ part, isDecimalChar e = true := by
    intro e he
    rw [hpart] at he
    have hne : (e != c) = true := List.all_eq_true.1 List.all_takeWhile e he
    exact (hchars e ((List.takeWhile_prefix _).subset he)).resolve_right (by simpa using hne)
  have hblank : ∀ e ∈ part, isBlank e = false := fun e he =>
    isBlank_of_isNumeric (by simp [isNumeric, hdecimal e he])
  have htrim : trim (partBefore c d).toList = part := by
    rw [partBefore, String.toList_ofList, ← hpart]
    exact Text.trim_eq_self (fun e he => hblank e (List.mem_of_mem_head? he))
      (fun e he => hblank e (List.mem_of_mem_getLast? he))
  have hclock : clockTime? part = none := Option.not_isSome_iff_eq_none.1 fun h =>
    absurd (hdecimal _ (of_isSome_clockTime? h).1) (by decide)
  have hcomma : commaDecimal? part = none := Option.not_isSome_iff_eq_none.1 fun h =>
    absurd (hdecimal _ (of_isSome_commaDecimal? h).1) (by decide)
  show numberOfChars (trim (partBefore c d).toList) = _
  rw [htrim, numberOfChars_eq hclock hcomma, hback, ← hpart, decimal?_leadingNumber_append hc]

theorem toNumber_congr {v w : Value} (h : v.rawNumber = w.rawNumber) : v.toNumber = w.toNumber := by
  rw [Value.toNumber, Value.toNumber, h]

/-- **Which numbers a unit leaves alone.** Whatever stands behind a plain decimal and a blank, the
number is that of the decimal. A decimal comma and a clock time are read of a whole text only: with
a unit behind it the text has the number of the part in front of the comma or of the first colon.
Blanks are no unit. -/
theorem toNumber_withUnit (d u : String) :
    ((decimal? (trim d.toList)).isSome = true →
      (Value.text (withUnit d u)).toNumber = (Value.text d).toNumber) ∧
    ((commaDecimal? (trim d.toList)).isSome = true → (∃ c ∈ u.toList, isBlank c = false) →
      (Value.text (withUnit d u)).toNumber = (Value.text (partBefore ',' d)).toNumber) ∧
    ((clockTime? (trim d.toList)).isSome = true → (∃ c ∈ u.toList, isBlank c = false) →
      (Value.text (withUnit d u)).toNumber = (Value.text (partBefore ':' d)).toNumber) ∧
    ((∀ c ∈ u.toList, isBlank c = true) →
      (Value.text (withUnit d u)).toNumber = (Value.text d).toNumber) := by
  have hblank : (∀ c ∈ u.toList, isBlank c = true) →
      (Value.text (withUnit d u)).toNumber = (Value.text d).toNumber := fun hu =>
    toNumber_congr (congrArg numberOfChars (trim_withUnit_of_blank hu d))
  refine ⟨fun h => ?_, fun h hu => ?_, fun h hu => ?_, hblank⟩
  · by_cases hu : ∀ c ∈ u.toList, isBlank c = true
    · exact hblank hu
    · have hunit : ∃ c ∈ u.toList, isBlank c = false := by simpa using hu
      refine toNumber_congr ?_
      obtain ⟨x, hx⟩ := Option.isSome_iff_exists.1 h
      rw [rawNumber_withUnit (.inl h) hunit, decimal?_leadingNumber_of_decimal hx]
      show x = numberOfChars (trim d.toList)
      rw [numberOfChars, hx]
      rfl
  · obtain ⟨hcomma, hchars⟩ := of_isSome_commaDecimal? h
    refine toNumber_congr ?_
    rw [rawNumber_withUnit (.inr (.inr h)) hu, rawNumber_partBefore (by decide) hcomma hchars]
  · obtain ⟨hcolon, hchars⟩ := of_isSome_clockTime? h
    refine toNumber_congr ?_
    rw [rawNumber_withUnit (.inr (.inl h)) hu, rawNumber_partBefore (by decide) hcolon
      fun e he => (hchars e he).imp_left fun hdigit => by simp [isDecimalChar, hdigit]]

/-- A decimal with a sign, a decimal comma and a clock time, with the units behind them. -/
theorem toNumber_withUnit_km :
    ((decimal? (trim " -12.".toList)).isSome = true ∧
      (Value.text (withUnit " -12." "km, retour")).toNumber = (Value.text " -12.").toNumber) ∧
    ((commaDecimal? (trim "3,5".toList)).isSome = true ∧
      (∃ c ∈ "km".toList, isBlank c = false) ∧
      (Value.text (withUnit "3,5" "km")).toNumber = (Value.text (partBefore ',' "3,5")).toNumber) ∧
    ((clockTime? (trim "07:30".toList)).isSome = true ∧
      (∃ c ∈ "uur".toList, isBlank c = false) ∧
      (Value.text (withUnit "07:30" "uur")).toNumber =
        (Value.text (partBefore ':' "07:30")).toNumber) ∧
    ((∀ c ∈ "\u00a0".toList, isBlank c = true) ∧
      (Value.text (withUnit "3,5" "\u00a0")).toNumber = (Value.text "3,5").toNumber) := by
  have hdecimal : (decimal? (trim " -12.".toList)).isSome = true := by decide +kernel
  have hcomma : (commaDecimal? (trim "3,5".toList)).isSome = true := by decide +kernel
  have hclock : (clockTime? (trim "07:30".toList)).isSome = true := by decide +kernel
  have hkm : ∃ c ∈ "km".toList, isBlank c = false := ⟨'k', by decide, by decide⟩
  have huur : ∃ c ∈ "uur".toList, isBlank c = false := ⟨'u', by decide, by decide⟩
  have hblank : ∀ c ∈ "\u00a0".toList, isBlank c = true := List.all_eq_true.1 (by decide)
  exact ⟨⟨hdecimal, (toNumber_withUnit _ _).1 hdecimal⟩,
    ⟨hcomma, hkm, (toNumber_withUnit _ _).2.1 hcomma hkm⟩,
    ⟨hclock, huur, (toNumber_withUnit _ _).2.2.1 hclock huur⟩,
    ⟨hblank, (toNumber_withUnit _ _).2.2.2 hblank⟩⟩

/-- A unit cuts a decimal comma and a clock time. -/
theorem not_keepsNumber_withUnit :
    (ReadsWhole "3,5".toList ∧ (∀ c ∈ "km".toList, c.isAlpha = true) ∧
      (Value.text (withUnit "3,5" "km")).toNumber ≠ (Value.text "3,5").toNumber) ∧
    (ReadsWhole "07:30".toList ∧ (∀ c ∈ "uur".toList, c.isAlpha = true) ∧
      (Value.text (withUnit "07:30" "uur")).toNumber ≠ (Value.text "07:30").toNumber) :=
  ⟨⟨.inr (.inr (by decide +kernel)), List.all_eq_true.1 (by decide), by decide +kernel⟩,
    ⟨.inr (.inl (by decide +kernel)), List.all_eq_true.1 (by decide), by decide +kernel⟩⟩

end SheetTemplate.Row
