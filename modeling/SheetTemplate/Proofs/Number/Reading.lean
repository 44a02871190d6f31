import SheetTemplate.Number.Text
import SheetTemplate.Proofs.Number.Exactness

/-!
# Printed numbers read back

A layout has an exact value, and written out in full it spells this value (`natOfDigits_plain`). The
exact decimal of a float has the value of the float, so it is read as the float again, and so is the
layout with the fewest digits (`toFloat_shortest`): it is either tested to do so, or it is the exact
one (`exists_shortest_eq_ofDecimal`).
-/

namespace SheetTemplate.Number

/-! ### Digits -/

theorem natOfDigits_append (as bs : List Char) :
    natOfDigits (as ++ bs) = natOfDigits as * 10 ^ bs.length + natOfDigits bs := by
  have h : ∀ ds, natOfDigits ds = Nat.ofDigitChars 10 ds 0 :=
    fun ds => Nat.ofDigitChars_eq_foldl.symm
  rw [h, h, h, Nat.ofDigitChars_append, Nat.ofDigitChars_eq_ofDigitChars_zero, Nat.mul_comm]

theorem natOfDigits_replicate_zero (n : Nat) : natOfDigits (List.replicate n '0') = 0 := by
  show Nat.ofDigitChars 10 _ 0 = 0
  rw [Nat.ofDigitChars_replicate_zero, Nat.mul_zero]

theorem natOfDigits_digitsOfNat (n : Nat) : natOfDigits (digitsOfNat n) = n :=
  Nat.ofDigitChars_ten_toDigits

theorem isDigit_of_mem_digitsOfNat {n : Nat} {c : Char} (h : c ∈ digitsOfNat n) :
    c.isDigit = true :=
  Nat.isDigit_of_mem_toDigits (by decide) (by decide) h

namespace Layout

/-- Behind the significant digits there are zeros only. -/
theorem exists_significant (ds : List Char) :
    ∃ k, ds = significant ds ++ List.replicate k '0' := by
  refine ⟨(ds.reverse.takeWhile (· == '0')).length, ?_⟩
  have hzeros : ds.reverse.takeWhile (· == '0') =
      List.replicate (ds.reverse.takeWhile (· == '0')).length '0' :=
    List.eq_replicate_of_mem fun c hc => by simpa using List.mem_takeWhile_imp hc
  have hsplit := congrArg List.reverse
    (List.takeWhile_append_dropWhile (p := (· == '0')) (l := ds.reverse))
  rw [List.reverse_append, List.reverse_reverse, hzeros, List.reverse_replicate] at hsplit
  simpa [significant] using hsplit.symm

/-! ### The value of a layout -/

/-- The number that a layout stands for. -/
def value (l : Layout) : ℚ := natOfDigits l.digits * 10 ^ (l.point - l.digits.length)

/-- A layout written out in full spells its value. -/
theorem natOfDigits_plain (l : Layout) :
    (natOfDigits (l.whole ++ l.fraction) : ℚ) = l.value * 10 ^ l.fraction.length := by
  have hten : (10 : ℚ) ≠ 0 := by norm_num
  unfold value whole fraction
  split_ifs with hpoint
  · have hzeros : natOfDigits (['0'] ++ (List.replicate (-l.point).toNat '0' ++ l.digits)) =
        natOfDigits l.digits := by
      rw [natOfDigits_append, natOfDigits_append, natOfDigits_replicate_zero]
      show 0 * _ + (0 * _ + _) = _
      omega
    rw [hzeros, mul_assoc, ← zpow_natCast (10 : ℚ), ← zpow_add₀ hten, List.length_append,
      List.length_replicate]
    have hexp : l.point - l.digits.length + ((-l.point).toNat + l.digits.length : Nat) = 0 := by
      omega
    rw [hexp, zpow_zero, mul_one]
  · obtain ⟨n, hn⟩ : ∃ n : Nat, l.point = n := ⟨l.point.toNat, by omega⟩
    rw [hn, Int.toNat_natCast]
    -- either zeros stand behind the digits, or the point stands among them
    rcases Nat.le_total l.digits.length n with hle | hle
    · rw [List.take_of_length_le hle, List.drop_of_length_le hle, List.append_nil,
        natOfDigits_append, natOfDigits_replicate_zero, List.length_replicate, Nat.add_zero,
        List.length_nil, pow_zero, mul_one, ← Int.natCast_sub hle, zpow_natCast]
      push_cast
      rfl
    · rw [Nat.sub_eq_zero_of_le hle, List.replicate_zero, List.append_nil, List.take_append_drop,
        List.length_drop, mul_assoc, ← zpow_natCast (10 : ℚ), ← zpow_add₀ hten]
      have hexp : (n : Int) - l.digits.length + (l.digits.length - n : Nat) = 0 := by omega
      rw [hexp, zpow_zero, mul_one]

end Layout

/-- The number that a decimal stands for. -/
def Decimal.value (d : Decimal) : ℚ := d.digits * 10 ^ d.exponent

theorem Layout.value_ofDecimal (d : Decimal) : (Layout.ofDecimal d).value = d.value := by
  obtain ⟨k, hk⟩ := Layout.exists_significant (digitsOfNat d.digits)
  have hdigits := congrArg natOfDigits hk
  have hlength := congrArg List.length hk
  rw [natOfDigits_digitsOfNat, natOfDigits_append, natOfDigits_replicate_zero,
    List.length_replicate, Nat.add_zero] at hdigits
  rw [List.length_append, List.length_replicate] at hlength
  unfold Layout.value Decimal.value Layout.ofDecimal
  simp only [hlength]
  generalize Layout.significant (digitsOfNat d.digits) = ds at hdigits ⊢
  rw [hdigits, Nat.cast_mul, Nat.cast_pow, Nat.cast_ofNat, mul_assoc, ← zpow_natCast (10 : ℚ) k,
    ← zpow_add₀ (by norm_num)]
  congr 2
  push_cast
  ring

/-- The exact decimal of a float has its value. -/
theorem Decimal.value_ofFloat (x : Float) :
    (Decimal.ofFloat x).value = scaled (Binary.ofFloat x).steps (Binary.ofFloat x).scale := by
  unfold Decimal.value Decimal.ofFloat scaled
  generalize Binary.ofFloat x = b
  obtain ⟨m, e⟩ := b
  cases e with
  | ofNat e => simp
  | negSucc e =>
    have hten : (10 : ℚ) ^ (e + 1) = 5 ^ (e + 1) * 2 ^ (e + 1) := by
      rw [← mul_pow]
      norm_num
    show ((m * 5 ^ (e + 1) : Nat) : ℚ) * 10 ^ (-((e : Int) + 1)) = m * 2 ^ Int.negSucc e
    rw [← Int.negSucc_eq, zpow_negSucc, zpow_negSucc, hten, Nat.cast_mul, Nat.cast_pow,
      Nat.cast_ofNat]
    field_simp

/-! ### Floats -/

variable {x : Float}

/-- The exact decimal of a float is read as the float. -/
theorem toFloat_ofFloat (h : x.isFinite = true) (hs : isSigned x = false) (h0 : x ≠ 0) :
    (Layout.ofDecimal (.ofFloat x)).toFloat = x := by
  refine ofScientific_eq (isPositive_ofFloat h hs h0) ?_
  rw [Layout.natOfDigits_plain, Layout.value_ofDecimal, Decimal.value_ofFloat]

/-- A layout that is tested is that of a decimal. -/
theorem toFloat_of_withDigits {tie : Tie} {n : Nat} {l : Layout}
    (h : Layout.withDigits? tie x n = some l) : ∃ d, l = .ofDecimal d ∧ l.toFloat = x := by
  unfold Layout.withDigits? at h
  simp only [] at h
  split_ifs at h with hnear hfar
  · exact ⟨_, (Option.some.inj h).symm, Option.some.inj h ▸ hnear⟩
  · exact ⟨_, (Option.some.inj h).symm, Option.some.inj h ▸ hfar⟩

/-- A float other than zero is written as a decimal that was tested, or as its exact decimal. -/
theorem exists_shortest_eq_ofDecimal (tie : Tie) (h0 : x ≠ 0) : ∃ d,
    Layout.shortest tie x = .ofDecimal d ∧
      ((Layout.ofDecimal d).toFloat = x ∨ d = .ofFloat x) := by
  unfold Layout.shortest
  rw [if_neg h0]
  cases hfind : (List.range' 1 17).findSome? (Layout.withDigits? tie x) with
  | none => exact ⟨_, rfl, .inr rfl⟩
  | some l =>
    obtain ⟨n, -, hn⟩ := List.exists_of_findSome?_eq_some hfind
    obtain ⟨d, rfl, hread⟩ := toFloat_of_withDigits hn
    exact ⟨d, rfl, .inl hread⟩

/-- **The fewest digits of a float read back as the float.** -/
theorem toFloat_shortest (tie : Tie) (h : x.isFinite = true) (hs : isSigned x = false) :
    (Layout.shortest tie x).toFloat = x := by
  by_cases h0 : x = 0
  · rw [Layout.shortest, if_pos h0, h0]
    decide
  · obtain ⟨d, hd, hread | rfl⟩ := exists_shortest_eq_ofDecimal tie h0
    · rw [hd, hread]
    · rw [hd, toFloat_ofFloat h hs h0]

/-! ### The digits of a written number -/

/-- The layout has digits only. -/
def Layout.HasDigits (l : Layout) : Prop := ∀ c ∈ l.digits, c.isDigit = true

theorem Layout.hasDigits_ofDecimal (d : Decimal) : (Layout.ofDecimal d).HasDigits := by
  intro c hc
  obtain ⟨k, hk⟩ := Layout.exists_significant (digitsOfNat d.digits)
  refine isDigit_of_mem_digitsOfNat (n := d.digits) ?_
  rw [hk]
  exact List.mem_append_left _ hc

theorem Layout.hasDigits_shortest (tie : Tie) (x : Float) : (Layout.shortest tie x).HasDigits := by
  by_cases h0 : x = 0
  · rw [shortest, if_pos h0]
    intro c hc
    cases hc
  · obtain ⟨d, hd, -⟩ := exists_shortest_eq_ofDecimal tie h0
    rw [hd]
    exact hasDigits_ofDecimal d

theorem Layout.isDigit_of_mem_whole {l : Layout} (h : l.HasDigits) {c : Char} (hc : c ∈ l.whole) :
    c.isDigit = true := by
  unfold Layout.whole at hc
  split_ifs at hc with hpoint
  · cases List.mem_singleton.1 hc
    rfl
  · rcases List.mem_append.1 hc with hc | hc
    · exact h c (List.mem_of_mem_take hc)
    · cases List.eq_of_mem_replicate hc
      rfl

theorem Layout.isDigit_of_mem_fraction {l : Layout} (h : l.HasDigits) {c : Char}
    (hc : c ∈ l.fraction) : c.isDigit = true := by
  unfold Layout.fraction at hc
  split_ifs at hc with hpoint
  · rcases List.mem_append.1 hc with hc | hc
    · cases List.eq_of_mem_replicate hc
      rfl
    · exact h c hc
  · exact h c (List.mem_of_mem_drop hc)

theorem Layout.whole_ne_nil (l : Layout) : l.whole ≠ [] := by
  unfold Layout.whole
  split_ifs with hpoint
  · exact List.cons_ne_nil _ _
  · intro hnil
    have hlength := congrArg List.length hnil
    rw [List.length_append, List.length_take, List.length_replicate, List.length_nil] at hlength
    omega

/-! ### The first digit -/

/-- The digits of a number that is not zero start with another digit than `0`. -/
theorem exists_digitsOfNat {n : Nat} (hn : 0 < n) : ∃ c cs, digitsOfNat n = c :: cs ∧ c ≠ '0' := by
  induction n using Nat.strongRecOn with
  | ind n ih =>
    rcases Nat.lt_or_ge n 10 with hlt | hge
    · refine ⟨_, _, Nat.toDigits_of_lt_base hlt, ?_⟩
      rw [Ne, Nat.digitChar_eq_zero]
      omega
    · obtain ⟨c, cs, hcs, hc⟩ := ih (n / 10) (by omega) (by omega)
      have hsplit := Nat.toDigits_of_base_le (b := 10) (by decide) hge
      change digitsOfNat n = digitsOfNat (n / 10) ++ _ at hsplit
      exact ⟨c, _, by rw [hsplit, hcs, List.cons_append], hc⟩

theorem ofScientific_zero (k : Nat) : Float.ofScientific 0 true k = 0 := by
  unfold Float.ofScientific
  by_cases hfast : 0 < 2 ^ 53 ∧ k ≤ 22
  · have htable : ∀ i : Fin 23,
        (0 : Nat).toUInt64.toFloat / Float.exactlyRepresentablePowersOfTen[i] = 0 := by
      decide +kernel
    rw [dif_pos hfast, if_pos rfl]
    exact htable ⟨k, by omega⟩
  · rw [dif_neg hfast]
    rfl

namespace Layout

/-- The first digit of a decimal that is not zero is not `0`. -/
theorem exists_digits_ofDecimal {d : Decimal} (h : 0 < d.digits) :
    ∃ c cs, (ofDecimal d).digits = c :: cs ∧ c ≠ '0' := by
  obtain ⟨c, cs, hcs, hc⟩ := exists_digitsOfNat h
  obtain ⟨k, hk⟩ := exists_significant (digitsOfNat d.digits)
  show ∃ c cs, significant (digitsOfNat d.digits) = c :: cs ∧ c ≠ '0'
  cases hsig : significant (digitsOfNat d.digits) with
  | nil =>
    rw [hsig, hcs, List.nil_append] at hk
    exact absurd (List.eq_of_mem_replicate (hk ▸ List.mem_cons_self)) hc
  | cons c' cs' =>
    rw [hsig, hcs, List.cons_append] at hk
    exact ⟨c', cs', rfl, (List.cons.inj hk).1 ▸ hc⟩

/-- The fewest digits of a float that is not zero start with another digit than `0`. -/
theorem exists_digits_shortest (tie : Tie) (h : x.isFinite = true) (hs : isSigned x = false)
    (h0 : x ≠ 0) : ∃ c cs, (shortest tie x).digits = c :: cs ∧ c ≠ '0' := by
  obtain ⟨d, hd, hread⟩ := exists_shortest_eq_ofDecimal tie h0
  rw [hd]
  refine exists_digits_ofDecimal (Nat.pos_of_ne_zero fun hzero => ?_)
  have hvalue : d.value = 0 := by simp [Decimal.value, hzero]
  rcases hread with hread | rfl
  · -- a decimal that is zero is read as zero
    have hdigits := natOfDigits_plain (ofDecimal d)
    rw [value_ofDecimal, hvalue, zero_mul, Nat.cast_eq_zero] at hdigits
    rw [toFloat, ofDigits, hdigits, ofScientific_zero] at hread
    exact h0 hread.symm
  · have hpos := scaled_pos (isPositive_ofFloat h hs h0).canonical.pos (Binary.ofFloat x).scale
    rw [← Decimal.value_ofFloat, hvalue] at hpos
    exact lt_irrefl _ hpos

end Layout
end SheetTemplate.Number
