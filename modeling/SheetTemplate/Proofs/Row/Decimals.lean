import SheetTemplate.Row.Value
import SheetTemplate.Proofs.Text.Runs

/-!
# The decimal that a text starts with

A plain decimal is an optional sign, digits and at most one point (`HasDecimalParts`); the
characters alone decide whether a text is one (`isSome_decimal?_iff`). Of the front parts of a text
that are decimals the longest one is found by reading sign, digits, point and digits as far as they
go (`isLongestDecimal_decimalFront`). The number that a text starts with leaves out a point without
digits behind it, which does not change the value (`decimal?_leadingNumber`). So a text that is no
clock time and no decimal with a comma is read as its longest decimal (`rawNumber_of_longest`).
-/

namespace SheetTemplate.Row

/-! ### The parts of a decimal -/

/-- What may stand in front of the digits of a decimal. -/
def signs : List (List Char) := [[], ['-'], ['+']]

/-- A text taken apart into a sign and the digits around a point, of which there are some. -/
structure HasDecimalParts (cs sign whole fraction : List Char) : Prop where
  sign_mem : sign ∈ signs
  isDigit_whole : ∀ c ∈ whole, c.isDigit = true
  isDigit_fraction : ∀ c ∈ fraction, c.isDigit = true
  digits_ne_nil : whole ++ fraction ≠ []
  text_eq : cs = sign ++ whole ∧ fraction = [] ∨ cs = sign ++ whole ++ '.' :: fraction

variable {cs ds body sign whole fraction p q : List Char} {c : Char} {x : Float}

theorem takeSign_append (cs : List Char) : (takeSign cs).1 ++ (takeSign cs).2 = cs := by
  unfold takeSign
  split <;> rfl

theorem takeSign_mem (cs : List Char) : (takeSign cs).1 ∈ signs := by
  unfold takeSign
  split <;> simp [signs]

/-- A text does not start with a sign. -/
def NoSign (cs : List Char) : Prop := ∀ c ∈ cs.head?, c ≠ '-' ∧ c ≠ '+'

theorem takeSign_of_noSign (h : NoSign body) : takeSign body = ([], body) := by
  unfold takeSign
  split
  · exact absurd rfl (h '-' rfl).1
  · exact absurd rfl (h '+' rfl).2
  · rfl

theorem takeSign_sign (hsign : sign ∈ signs) (h : NoSign body) :
    takeSign (sign ++ body) = (sign, body) := by
  simp only [signs, List.mem_cons, List.not_mem_nil, or_false] at hsign
  rcases hsign with rfl | rfl | rfl
  · exact takeSign_of_noSign h
  · rfl
  · rfl

theorem noSign_digit (h : c.isDigit = true) (cs : List Char) : NoSign (c :: cs) := by
  intro d hd
  obtain rfl := Option.some.inj hd
  constructor
  · rintro rfl
    cases h
  · rintro rfl
    cases h

theorem noSign_digits_append (hwhole : ∀ c ∈ whole, c.isDigit = true) (h : NoSign ds) :
    NoSign (whole ++ ds) := by
  cases whole with
  | nil => exact h
  | cons d whole => exact noSign_digit (hwhole d List.mem_cons_self) _

theorem noSign_point (cs : List Char) : NoSign ('.' :: cs) := by
  intro c hc
  obtain rfl := Option.some.inj hc
  decide

theorem noSign_nil : NoSign [] := by
  intro c hc
  cases hc

/-- **Which texts are plain decimals**, and what they are read as. -/
theorem decimal?_eq_some_iff : decimal? cs = some x ↔
    ∃ sign whole fraction, HasDecimalParts cs sign whole fraction ∧
      signedFloat sign whole fraction = x := by
  constructor
  · intro h
    have hwhole : ∀ c ∈ (takeSign cs).2.takeWhile Char.isDigit, c.isDigit = true :=
      List.all_eq_true.1 List.all_takeWhile
    have hbody := List.takeWhile_append_dropWhile (p := Char.isDigit) (l := (takeSign cs).2)
    have hcs := takeSign_append cs
    simp only [decimal?] at h
    split at h
    · rename_i hdrop
      rw [hdrop, List.append_nil] at hbody
      split_ifs at h with hnil
      refine ⟨_, _, [], ⟨takeSign_mem cs, hwhole, by simp, by simpa using hnil, .inl ⟨?_, rfl⟩⟩,
        Option.some.inj h⟩
      rw [hbody, hcs]
    · rename_i fraction hdrop
      rw [hdrop] at hbody
      split_ifs at h with htest
      simp only [Bool.and_eq_true, List.all_eq_true, Bool.not_eq_true', List.isEmpty_eq_false_iff]
        at htest
      refine ⟨_, _, fraction, ⟨takeSign_mem cs, hwhole, htest.1, htest.2, .inr ?_⟩,
        Option.some.inj h⟩
      rw [List.append_assoc, hbody, hcs]
    · cases h
  · rintro ⟨sign, whole, fraction, ⟨hsign, hwhole, hfraction, hne, ⟨rfl, rfl⟩ | rfl⟩, rfl⟩
    · have hnil : whole ≠ [] := by simpa using hne
      have htake := @Text.takeWhile_append_of_ends Char.isDigit whole [] hwhole (by simp)
      rw [List.append_nil] at htake
      have hno := noSign_digits_append hwhole noSign_nil
      rw [List.append_nil] at hno
      simp [decimal?, takeSign_sign hsign hno, htake, hnil]
    · have htake :=
        @Text.takeWhile_append_of_ends Char.isDigit whole ('.' :: fraction) hwhole (by simp)
      have hall : fraction.all Char.isDigit = true := List.all_eq_true.2 hfraction
      have hempty : (whole ++ fraction).isEmpty = false := List.isEmpty_eq_false_iff.2 hne
      have hno := noSign_digits_append hwhole (noSign_point fraction)
      rw [List.append_assoc]
      simp only [decimal?, takeSign_sign hsign hno, htake, hall, hempty, Bool.not_false,
        Bool.and_true, if_true]

theorem HasDecimalParts.decimal?_eq (h : HasDecimalParts cs sign whole fraction) :
    decimal? cs = some (signedFloat sign whole fraction) :=
  decimal?_eq_some_iff.2 ⟨_, _, _, h, rfl⟩

theorem exists_parts_of_isSome (h : (decimal? cs).isSome = true) :
    ∃ sign whole fraction, HasDecimalParts cs sign whole fraction := by
  obtain ⟨x, hx⟩ := Option.isSome_iff_exists.1 h
  obtain ⟨sign, whole, fraction, hparts, -⟩ := decimal?_eq_some_iff.1 hx
  exact ⟨sign, whole, fraction, hparts⟩

theorem HasDecimalParts.takeSign_snd (h : HasDecimalParts cs sign whole fraction) :
    (takeSign cs).2 = whole ∧ fraction = [] ∨ (takeSign cs).2 = whole ++ '.' :: fraction := by
  rcases h.text_eq with ⟨rfl, hnil⟩ | rfl
  · have hno := noSign_digits_append h.isDigit_whole noSign_nil
    rw [List.append_nil] at hno
    exact .inl ⟨congrArg Prod.snd (takeSign_sign h.sign_mem hno), hnil⟩
  · have hno := noSign_digits_append h.isDigit_whole (noSign_point fraction)
    rw [List.append_assoc]
    exact .inr (congrArg Prod.snd (takeSign_sign h.sign_mem hno))

/-- The digits of a decimal are characters of its text. -/
theorem HasDecimalParts.mem (h : HasDecimalParts cs sign whole fraction)
    (hc : c ∈ whole ++ fraction) : c ∈ cs := by
  rcases h.text_eq with ⟨rfl, rfl⟩ | rfl
  · exact List.mem_append_right _ (by simpa using hc)
  · rcases List.mem_append.1 hc with hc | hc <;> simp [hc]

/-- A text without digits is no decimal. -/
theorem decimal?_eq_none (h : ∀ c ∈ cs, c.isDigit = false) : decimal? cs = none := by
  refine Option.not_isSome_iff_eq_none.1 fun hsome => ?_
  obtain ⟨sign, whole, fraction, hparts⟩ := exists_parts_of_isSome hsome
  obtain ⟨d, ds, hds⟩ := List.exists_cons_of_ne_nil hparts.digits_ne_nil
  have hmem : d ∈ whole ++ fraction := hds ▸ List.mem_cons_self
  have hdigit : d.isDigit = true := by
    rcases List.mem_append.1 hmem with hd | hd
    · exact hparts.isDigit_whole d hd
    · exact hparts.isDigit_fraction d hd
  rw [h d (hparts.mem hmem)] at hdigit
  cases hdigit

/-- **The characters tell whether a text is a decimal**: behind the sign there are digits, and
besides them at most one point. -/
theorem isSome_decimal?_iff : (decimal? cs).isSome = true ↔
    (∃ c ∈ (takeSign cs).2, c.isDigit = true) ∧
      (∀ c ∈ (takeSign cs).2, c.isDigit = true ∨ c = '.') ∧ (takeSign cs).2.count '.' ≤ 1 := by
  have hno : ∀ ds : List Char, (∀ c ∈ ds, c.isDigit = true) → ds.count '.' = 0 := fun ds hds =>
    List.count_eq_zero.2 fun hmem => absurd (hds _ hmem) (by decide)
  constructor
  · intro h
    obtain ⟨sign, whole, fraction, hparts⟩ := exists_parts_of_isSome h
    obtain ⟨d, ds, hds⟩ := List.exists_cons_of_ne_nil hparts.digits_ne_nil
    have hd : d ∈ whole ++ fraction := hds ▸ List.mem_cons_self
    have hdigit : ∀ c ∈ whole ++ fraction, c.isDigit = true := fun c hc =>
      (List.mem_append.1 hc).elim (hparts.isDigit_whole c) (hparts.isDigit_fraction c)
    rcases hparts.takeSign_snd with ⟨hsnd, rfl⟩ | hsnd
    · rw [List.append_nil] at hd hdigit
      rw [hsnd, hno _ hdigit]
      exact ⟨⟨d, hd, hdigit d hd⟩, fun c hc => .inl (hdigit c hc), Nat.zero_le 1⟩
    · rw [hsnd, List.count_append, List.count_cons_self, hno _ hparts.isDigit_whole,
        hno _ hparts.isDigit_fraction]
      refine ⟨⟨d, ?_, hdigit d hd⟩, fun c hc => ?_, Nat.le_refl 1⟩
      · rcases List.mem_append.1 hd with hd | hd <;> simp [hd]
      · rcases List.mem_append.1 hc with hc | hc
        · exact .inl (hparts.isDigit_whole c hc)
        · rcases List.mem_cons.1 hc with rfl | hc
          · exact .inr rfl
          · exact .inl (hparts.isDigit_fraction c hc)
  · rintro ⟨⟨d, hd, hdigit⟩, hall, hcount⟩
    have hwhole : ∀ c ∈ (takeSign cs).2.takeWhile Char.isDigit, c.isDigit = true :=
      List.all_eq_true.1 List.all_takeWhile
    have hbody := List.takeWhile_append_dropWhile (p := Char.isDigit) (l := (takeSign cs).2)
    have hcs := takeSign_append cs
    have hend := List.head?_dropWhile_not Char.isDigit (takeSign cs).2
    cases hdrop : (takeSign cs).2.dropWhile Char.isDigit with
    | nil =>
      rw [hdrop, List.append_nil] at hbody
      have hparts : HasDecimalParts cs (takeSign cs).1 (takeSign cs).2 [] :=
        ⟨takeSign_mem cs, hbody ▸ hwhole, by simp, by simpa using List.ne_nil_of_mem hd,
          .inl ⟨hcs.symm, rfl⟩⟩
      rw [hparts.decimal?_eq]
      rfl
    | cons e rest =>
      rw [hdrop] at hbody hend
      -- what ends the digits is the point, and there is no other one behind it
      obtain rfl : e = '.' := (hall e (by rw [← hbody]; simp)).resolve_left (by simpa using hend)
      rw [← hbody, List.count_append, List.count_cons_self] at hcount
      have hrest : ∀ c ∈ rest, c.isDigit = true := fun c hc =>
        (hall c (by rw [← hbody]; simp [hc])).resolve_right fun heq =>
          absurd (List.count_pos_iff.2 (heq ▸ hc)) (by omega)
      have hparts : HasDecimalParts cs (takeSign cs).1 ((takeSign cs).2.takeWhile Char.isDigit)
          rest := by
        refine ⟨takeSign_mem cs, hwhole, hrest, ?_, .inr ?_⟩
        · rw [← hbody] at hd
          refine List.ne_nil_of_mem (a := d) ?_
          rcases List.mem_append.1 hd with hd | hd
          · exact List.mem_append_left _ hd
          · rcases List.mem_cons.1 hd with rfl | hd
            · cases hdigit
            · exact List.mem_append_right _ hd
        · rw [List.append_assoc, hbody, hcs]
      rw [hparts.decimal?_eq]
      rfl

/-! ### The longest decimal -/

/-- The digits behind a point at the front of a text. -/
def fractionFront : List Char → List Char
  | '.' :: cs => cs.takeWhile Char.isDigit
  | _ => []

/-- A point at the front of a text and the digits behind it. -/
def pointFront : List Char → List Char
  | '.' :: cs => '.' :: cs.takeWhile Char.isDigit
  | _ => []

/-- The front of a text that has the form of a decimal: a sign, digits, a point and digits. -/
def decimalFront (cs : List Char) : List Char :=
  (takeSign cs).1 ++ (takeSign cs).2.takeWhile Char.isDigit ++
    pointFront ((takeSign cs).2.dropWhile Char.isDigit)

/-- The longest front part of a text that is a decimal. -/
structure IsLongestDecimal (p cs : List Char) : Prop where
  isPrefix : p <+: cs
  isSome : (decimal? p).isSome = true
  length_le : ∀ q, q <+: cs → (decimal? q).isSome = true → q.length ≤ p.length

theorem pointFront_isPrefix (cs : List Char) : pointFront cs <+: cs := by
  unfold pointFront
  split
  · exact (List.prefix_cons_inj _).2 (List.takeWhile_prefix _)
  · exact List.nil_prefix

theorem decimalFront_isPrefix (cs : List Char) : decimalFront cs <+: cs := by
  have hbody := List.takeWhile_append_dropWhile (p := Char.isDigit) (l := (takeSign cs).2)
  have hcs := takeSign_append cs
  conv_rhs => rw [← hcs, ← hbody, ← List.append_assoc]
  exact (List.prefix_append_right_inj _).2 (pointFront_isPrefix _)

/-- The decimal front of a text is a decimal where it has digits. -/
theorem hasDecimalParts_decimalFront (hne : (takeSign cs).2.takeWhile Char.isDigit ++
      fractionFront ((takeSign cs).2.dropWhile Char.isDigit) ≠ []) :
    HasDecimalParts (decimalFront cs) (takeSign cs).1 ((takeSign cs).2.takeWhile Char.isDigit)
      (fractionFront ((takeSign cs).2.dropWhile Char.isDigit)) := by
  refine ⟨takeSign_mem cs, List.all_eq_true.1 List.all_takeWhile, ?_, hne, ?_⟩
  · unfold fractionFront
    split
    · exact List.all_eq_true.1 List.all_takeWhile
    · intro c hc
      cases hc
  · unfold decimalFront
    generalize (takeSign cs).2.dropWhile Char.isDigit = rest
    unfold pointFront fractionFront
    split
    · exact .inr rfl
    · exact .inl ⟨List.append_nil _, rfl⟩

/-- **A decimal at the front of a text is part of its decimal front**, which is a decimal then. -/
theorem decimal_prefix_front (hq : q <+: cs) (h : (decimal? q).isSome = true) :
    q <+: decimalFront cs ∧ (decimal? (decimalFront cs)).isSome = true := by
  obtain ⟨sign, whole, fraction, hparts⟩ := exists_parts_of_isSome h
  have hsome : (takeSign cs).2.takeWhile Char.isDigit ++
        fractionFront ((takeSign cs).2.dropWhile Char.isDigit) ≠ [] →
      (decimal? (decimalFront cs)).isSome = true := fun hne => by
    rw [(hasDecimalParts_decimalFront hne).decimal?_eq]
    rfl
  obtain ⟨more, rfl⟩ := hq
  rcases hparts.text_eq with ⟨rfl, rfl⟩ | rfl
  · -- the digits may go on behind the decimal, and a point may follow
    obtain ⟨d, ds, rfl⟩ := List.exists_cons_of_ne_nil (by simpa using hparts.digits_ne_nil)
    have hno : NoSign (d :: ds ++ more) :=
      noSign_digit (hparts.isDigit_whole d List.mem_cons_self) _
    have hsign : takeSign (sign ++ (d :: ds) ++ more) = (sign, d :: ds ++ more) := by
      rw [List.append_assoc, takeSign_sign hparts.sign_mem hno]
    have htake : (d :: ds ++ more).takeWhile Char.isDigit =
        d :: ds ++ more.takeWhile Char.isDigit :=
      List.takeWhile_append_of_pos hparts.isDigit_whole
    refine ⟨?_, hsome ?_⟩
    · rw [decimalFront, hsign, htake]
      simp
    · rw [hsign, htake]
      simp
  · have hno := noSign_digits_append hparts.isDigit_whole (noSign_point (fraction ++ more))
    have hsign : takeSign (sign ++ whole ++ '.' :: fraction ++ more) =
        (sign, whole ++ '.' :: (fraction ++ more)) := by
      rw [← takeSign_sign hparts.sign_mem hno]
      simp
    obtain ⟨htake, hdrop⟩ := @Text.takeWhile_append_of_ends Char.isDigit whole
      ('.' :: (fraction ++ more)) hparts.isDigit_whole (by simp)
    have hfraction : (fraction ++ more).takeWhile Char.isDigit =
        fraction ++ more.takeWhile Char.isDigit :=
      List.takeWhile_append_of_pos hparts.isDigit_fraction
    refine ⟨?_, hsome ?_⟩
    · rw [decimalFront, hsign, htake, hdrop, pointFront, hfraction]
      simp
    · rw [hsign, htake, hdrop, fractionFront, hfraction, ← List.append_assoc]
      exact List.append_ne_nil_of_left_ne_nil hparts.digits_ne_nil _

theorem isLongestDecimal_decimalFront (hq : q <+: cs) (h : (decimal? q).isSome = true) :
    IsLongestDecimal (decimalFront cs) cs :=
  ⟨decimalFront_isPrefix cs, (decimal_prefix_front hq h).2,
    fun _ hp hsome => (decimal_prefix_front hp hsome).1.length_le⟩

theorem IsLongestDecimal.eq (h : IsLongestDecimal p cs) (h' : IsLongestDecimal q cs) : p = q :=
  (List.prefix_of_prefix_length_le h.isPrefix h'.isPrefix
    (h'.length_le p h.isPrefix h.isSome)).eq_of_length_le (h.length_le q h'.isPrefix h'.isSome)

/-- A point at the end of a decimal does not change its value. -/
theorem decimal?_point (hsign : sign ∈ signs) (hwhole : ∀ c ∈ whole, c.isDigit = true) :
    decimal? (sign ++ whole) = decimal? (sign ++ whole ++ ['.']) := by
  by_cases hnil : whole = []
  · have hnone : ∀ sign ∈ signs, ∀ c ∈ sign ++ ['.'], c.isDigit = false := by
      simp [signs]
    rw [hnil, List.append_nil, decimal?_eq_none (hnone sign hsign),
      decimal?_eq_none fun c hc => hnone sign hsign c (List.mem_append_left _ hc)]
  · have hne : whole ++ [] ≠ [] := by simpa using hnil
    rw [HasDecimalParts.decimal?_eq ⟨hsign, hwhole, by simp, hne, .inl ⟨rfl, rfl⟩⟩,
      HasDecimalParts.decimal?_eq ⟨hsign, hwhole, by simp, hne, .inr rfl⟩]

/-- **The number that a text starts with has the value of the decimal front.** A point without
digits behind it is left out, which does not change the value. -/
theorem decimal?_leadingNumber (cs : List Char) :
    decimal? (leadingNumber cs) = decimal? (decimalFront cs) := by
  have hsign := takeSign_mem cs
  have hwhole : ∀ c ∈ (takeSign cs).2.takeWhile Char.isDigit, c.isDigit = true :=
    List.all_eq_true.1 List.all_takeWhile
  unfold leadingNumber decimalFront
  simp only []
  generalize (takeSign cs).1 = sign at hsign ⊢
  generalize (takeSign cs).2.takeWhile Char.isDigit = whole at hwhole ⊢
  split
  · rename_i rest hdrop
    rw [hdrop, pointFront]
    split_ifs with hnil
    · rw [hnil, decimal?_point hsign hwhole]
    · rfl
  · rename_i hpoint
    have hnone : pointFront ((takeSign cs).2.dropWhile Char.isDigit) = [] := by
      unfold pointFront
      split
      · rename_i rest hdrop
        exact absurd hdrop (hpoint rest)
      · rfl
    rw [hnone, List.append_nil]

theorem decimal?_leadingNumber_of_longest (h : IsLongestDecimal p cs) :
    decimal? (leadingNumber cs) = decimal? p := by
  rw [decimal?_leadingNumber, (isLongestDecimal_decimalFront h.isPrefix h.isSome).eq h]

/-- A decimal is its own longest front part. -/
theorem isLongestDecimal_self (h : (decimal? cs).isSome = true) : IsLongestDecimal cs cs :=
  ⟨List.prefix_rfl, h, fun _ hq _ => hq.length_le⟩

/-- The strict reading and the reading of the front agree on whole decimals. -/
theorem decimal?_leadingNumber_of_decimal (h : decimal? cs = some x) :
    decimal? (leadingNumber cs) = some x := by
  rw [decimal?_leadingNumber_of_longest (isLongestDecimal_self (by rw [h]; rfl)), h]

/-! ### Texts -/

/-- A text that is neither a clock time nor a decimal with a comma is read by its front. -/
theorem numberOfChars_eq (hclock : clockTime? cs = none) (hcomma : commaDecimal? cs = none) :
    numberOfChars cs = (decimal? (leadingNumber cs)).getD 0 := by
  rw [numberOfChars, hclock, hcomma]
  cases hdecimal : decimal? cs with
  | none => rfl
  | some x =>
    rw [decimal?_leadingNumber_of_decimal hdecimal]
    rfl

/-- **Texts are read by maximal munch.** A text that is neither a clock time nor a decimal with a
comma has the value of its longest front part that is a decimal, and is 0 where no front part is
one. The front that is read agrees with the strict reading of whole decimals. -/
theorem rawNumber_of_longest (t : String) (hclock : clockTime? (Text.trim t.toList) = none)
    (hcomma : commaDecimal? (Text.trim t.toList) = none) :
    ((∃ p, IsLongestDecimal p (Text.trim t.toList) ∧
        decimal? p = some (Value.text t).rawNumber) ∨
      (∀ p, p <+: Text.trim t.toList → decimal? p = none) ∧ (Value.text t).rawNumber = 0) ∧
    ∀ cs x, decimal? cs = some x → decimal? (leadingNumber cs) = some x := by
  refine ⟨?_, fun cs x => decimal?_leadingNumber_of_decimal⟩
  have hread : (Value.text t).rawNumber =
      (decimal? (leadingNumber (Text.trim t.toList))).getD 0 := numberOfChars_eq hclock hcomma
  by_cases hsome : ∃ p, p <+: Text.trim t.toList ∧ (decimal? p).isSome = true
  · obtain ⟨q, hq, h⟩ := hsome
    have hlongest := isLongestDecimal_decimalFront hq h
    obtain ⟨x, hx⟩ := Option.isSome_iff_exists.1 hlongest.isSome
    refine .inl ⟨_, hlongest, ?_⟩
    rw [hread, decimal?_leadingNumber, hx]
    rfl
  · have hnone : ∀ p, p <+: Text.trim t.toList → decimal? p = none := fun p hp =>
      Option.not_isSome_iff_eq_none.1 fun h => hsome ⟨p, hp, h⟩
    refine .inr ⟨hnone, ?_⟩
    rw [hread, decimal?_leadingNumber, hnone _ (decimalFront_isPrefix _)]
    rfl

/-- Two points, a comma and a unit behind a decimal with a sign and zeros. -/
theorem rawNumber_of_longest_points :
    clockTime? (Text.trim " -007.50.1 km, 3".toList) = none ∧
    commaDecimal? (Text.trim " -007.50.1 km, 3".toList) = none ∧
    (∃ p, IsLongestDecimal p (Text.trim " -007.50.1 km, 3".toList) ∧
      decimal? p = some (Value.text " -007.50.1 km, 3").rawNumber) ∧
    decimal? (leadingNumber "5.".toList) = some 5 := by
  have hclock : clockTime? (Text.trim " -007.50.1 km, 3".toList) = none := by decide +kernel
  have hcomma : commaDecimal? (Text.trim " -007.50.1 km, 3".toList) = none := by decide +kernel
  obtain ⟨hread, hsame⟩ := rawNumber_of_longest " -007.50.1 km, 3" hclock hcomma
  refine ⟨hclock, hcomma, hread.resolve_right fun hnone => ?_, hsame _ _ (by decide +kernel)⟩
  have hprefix : "-007.50".toList <+: Text.trim " -007.50.1 km, 3".toList := by decide +kernel
  exact absurd (hnone.1 _ hprefix) (by decide +kernel)

end SheetTemplate.Row
