import SheetTemplate.Proofs.Json.Numerals
import SheetTemplate.Proofs.Number.Range

/-!
# Floats of documents

A number that is read as a float is read as a finite one (`isFinite_of_toFloat?`). The reader keeps
the digits that fit into 64 bits and scales them once by a power of ten, so a float with few digits
is read back from its text (`readsBack_of_lt`), and one with many digits may be read as a neighbour
of itself. `ReadsBack` says of a float that it is read back.
-/

namespace SheetTemplate.Json

open Number

/-! ### What is read is finite -/

theorem absorb_le {n : Nat} (hn : n ≤ maxCount) (ds : List Char) : (absorb n ds).1 ≤ maxCount := by
  induction ds generalizing n with
  | nil => exact hn
  | cons d ds ih =>
    rw [absorb]
    split_ifs with hnext
    · exact ih hnext
    · exact hn

/-- A finite float that is scaled is finite. -/
theorem isFinite_of_scale? {x y : Float} {power : Int} (hx : x.isFinite = true)
    (h : scale? x power = some y) : y.isFinite = true := by
  cases power with
  | ofNat n =>
    simp only [scale?] at h
    split_ifs at h with hn hinf hzero
    · obtain rfl := Option.some.inj h
      obtain ⟨m, e, hten, -⟩ := exists_isPositive_tenPow hn
      exact isFinite_of_not_isNaN_of_not_isInf (isNaN_mul hx hten) (Bool.eq_false_iff.2 hinf)
    · obtain rfl := Option.some.inj h
      exact hx
  | negSucc n =>
    simp only [scale?] at h
    split_ifs at h with hn hn'
    · obtain rfl := Option.some.inj h
      obtain ⟨m, e, hten, htwo⟩ := exists_isPositive_tenPow (k := n + 1) hn
      exact isFinite_div hx hten (htwo (Nat.succ_pos n))
    · obtain rfl := Option.some.inj h
      obtain ⟨m₁, e₁, hten₁, htwo₁⟩ := exists_isPositive_tenPow (k := 308) le_rfl
      obtain ⟨m₂, e₂, hten₂, htwo₂⟩ := exists_isPositive_tenPow (k := n + 1 - 308) (by omega)
      exact isFinite_div (isFinite_div hx hten₁ (htwo₁ (by decide))) hten₂ (htwo₂ (by omega))
    · obtain rfl := Option.some.inj h
      decide

/-- **A number that is read as a float is read as a finite float.** -/
theorem Numeral.isFinite_of_toFloat? {n : Numeral} {x : Float} (h : n.toFloat? = some x) :
    x.isFinite = true := by
  unfold toFloat? at h
  simp only [Option.map_eq_some_iff] at h
  obtain ⟨y, hscale, rfl⟩ := h
  have hdigits := absorb_le (absorb_le (Nat.zero_le _) n.whole) n.fraction
  have hmax : maxCount < 2 ^ 64 := by decide
  have hy := isFinite_of_scale? (isFinite_ofNat (hdigits.trans_lt hmax)) hscale
  split_ifs
  · exact isFinite_neg hy
  · exact hy

/-! ### What is read back -/

/-- The text of a float is read as the float. -/
def ReadsBack (x : Float) : Prop := (Numeral.ofFloat x).toFloat? = some x

instance (x : Float) : Decidable (ReadsBack x) :=
  inferInstanceAs (Decidable ((Numeral.ofFloat x).toFloat? = some x))

/-- Digits that spell a number of 64 bits are all absorbed. -/
theorem absorb_eq {n : Nat} {ds : List Char}
    (h : n * 10 ^ ds.length + natOfDigits ds ≤ maxCount) :
    absorb n ds = (n * 10 ^ ds.length + natOfDigits ds, 0) := by
  induction ds generalizing n with
  | nil =>
    rw [absorb, List.length_nil, pow_zero, Nat.mul_one]
    rfl
  | cons d ds ih =>
    have hvalue : n * 10 ^ (d :: ds).length + natOfDigits (d :: ds) =
        (10 * n + (d.toNat - '0'.toNat)) * 10 ^ ds.length + natOfDigits ds := by
      have hsplit := natOfDigits_append [d] ds
      have hdigit : natOfDigits [d] = d.toNat - '0'.toNat := by simp [natOfDigits]
      rw [List.singleton_append, hdigit] at hsplit
      rw [hsplit, List.length_cons, Nat.pow_succ]
      ring
    rw [hvalue] at h ⊢
    have hnext : 10 * n + (d.toNat - '0'.toNat) ≤ maxCount :=
      le_trans (Nat.le_mul_of_pos_right _ (by positivity)) ((Nat.le_add_right _ _).trans h)
    rw [absorb]
    simp only [if_pos hnext, ih h]

theorem powerOfTen_eq {k : Nat} (hk : k < Float.exactlyRepresentablePowersOfTen.size) :
    powerOfTen k = Float.exactlyRepresentablePowersOfTen[k] :=
  ofScientific_one hk

/-- Few digits, scaled by a small power of ten, are the float that they spell. -/
theorem scale?_ofNat {n k : Nat} (hn : n < 2 ^ 53) (hk : k ≤ 22) :
    scale? (Float.ofNat n) (-(k : Int)) = some (Float.ofScientific n true k) := by
  rcases Nat.eq_zero_or_pos n with rfl | hpos
  · have hzero : ∀ i : Fin 23, scale? (Float.ofNat 0) (-(i.val : Int)) = some 0 := by
      decide +kernel
    rw [ofScientific_zero]
    exact hzero ⟨k, by omega⟩
  · obtain ⟨m, e, hx, -⟩ := exists_isPositive_toFloat hpos hn
    have htable : k < Float.exactlyRepresentablePowersOfTen.size := Nat.lt_succ_of_le hk
    have hten := powerOfTen_eq htable
    have hquotient : Float.ofScientific n true k =
        n.toUInt64.toFloat / Float.exactlyRepresentablePowersOfTen[k] := by
      unfold Float.ofScientific
      rw [dif_pos ⟨hn, hk⟩, if_pos rfl]
    rw [ofNat_eq_toFloat hpos hn, hquotient, ← hten]
    cases k with
    | zero =>
      obtain ⟨m₁, e₁, hone, hone'⟩ := exists_isPositive_powerOfTen (n := 0) (by decide)
      have hscale : e₁ ≤ 0 :=
        scale_le_zero (n := 1) hone.canonical (by simpa using hone') (by decide)
      have hvalue : scaled m e = scaled m e * scaled m₁ e₁ := by rw [hone', pow_zero, mul_one]
      have hmul := mul_eq hx hone hx hvalue.symm (by omega)
      have hdiv := div_eq hx hone hx hvalue
      rw [← hten] at hmul hdiv
      show scale? n.toUInt64.toFloat (.ofNat 0) = _
      simp only [scale?, hmul, hdiv, isInf_of_isFinite hx.isFinite]
      rfl
    | succ k =>
      show scale? n.toUInt64.toFloat (.negSucc k) = _
      rw [scale?, if_pos (by omega)]

/-- Few digits around a point are read as the float that they spell, with the sign in front. -/
theorem Numeral.toFloat?_plain (negative : Bool) {whole fraction : List Char}
    (hn : natOfDigits (whole ++ fraction) < 2 ^ 53) (hk : fraction.length ≤ 22) :
    (Numeral.mk negative whole fraction [] []).toFloat? =
      some (if negative then -ofDigits whole fraction else ofDigits whole fraction) := by
  have hmax : 2 ^ 53 ≤ maxCount := by decide
  have hsplit := natOfDigits_append whole fraction
  have hwhole : absorb 0 whole = (natOfDigits whole, 0) := by
    have hle : 0 * 10 ^ whole.length + natOfDigits whole ≤ maxCount := by
      have hpos : 0 < 10 ^ fraction.length := by positivity
      have hle := Nat.le_mul_of_pos_right (natOfDigits whole) hpos
      omega
    rw [absorb_eq hle, Nat.zero_mul, Nat.zero_add]
  have hfraction : absorb (natOfDigits whole) fraction = (natOfDigits (whole ++ fraction), 0) := by
    rw [absorb_eq (by omega), ← hsplit]
  have hpower : (Numeral.mk negative whole fraction [] []).power + ((0 : Nat) : Int) -
      ((fraction.length - 0 : Nat) : Int) = -(fraction.length : Int) := by
    simp [power, natOfDigits]
  unfold toFloat?
  simp only [hwhole, hfraction, hpower, scale?_ofNat hn hk, Option.map_some]
  rfl

/-- A zero behind the point of a small whole number does not matter. -/
theorem ofDigits_zero {whole : List Char} (hn : natOfDigits whole < 2 ^ 53) :
    ofDigits whole ['0'] = ofDigits whole [] := by
  have hdigits : natOfDigits (whole ++ ['0']) = natOfDigits whole * 10 := natOfDigits_append _ _
  rw [ofDigits, ofDigits, hdigits, List.append_nil]
  rcases Nat.eq_zero_or_pos (natOfDigits whole) with hzero | hpos
  · rw [hzero, Nat.zero_mul, ofScientific_zero, ofScientific_zero]
  · obtain ⟨m, e, hx, hvalue⟩ := exists_isPositive_toFloat hpos hn
    rw [ofScientific_eq hx (k := [].length) (by rw [hvalue]; simp),
      ofScientific_eq hx (k := ['0'].length) (by rw [hvalue]; simp)]

/-- **A float is read back from few digits.** -/
theorem readsBack_of_lt {x : Float} (h : x.isFinite = true)
    (hplain : (Numeral.ofFloat x).exponent = [])
    (hn : natOfDigits ((Numeral.ofFloat x).whole ++ (Numeral.ofFloat x).fraction) < 2 ^ 53)
    (hk : (Numeral.ofFloat x).fraction.length ≤ 22) : ReadsBack x := by
  have hshortest := toFloat_shortest .toEven (isFinite_abs h) (isSigned_abs h)
  rw [Layout.toFloat] at hshortest
  unfold ReadsBack
  unfold Numeral.ofFloat at hplain hn hk ⊢
  generalize Layout.shortest .toEven x.abs = l at hshortest hplain hn hk ⊢
  by_cases hfull : -5 ≤ l.point - 1 ∧ l.point - 1 < 16
  · simp only [if_pos hfull] at hn hk ⊢
    have hread : ofDigits l.whole (if l.fraction = [] then ['0'] else l.fraction) = x.abs := by
      split_ifs at hn ⊢ with hnil
      · rw [natOfDigits_append] at hn
        rw [← hshortest, hnil]
        refine ofDigits_zero (lt_of_le_of_lt ?_ hn)
        simp only [List.length_singleton]
        omega
      · exact hshortest
    rw [Numeral.toFloat?_plain _ hn hk, hread]
    cases hs : isSigned x with
    | true => rw [if_pos rfl, neg_abs_of_isSigned h hs]
    | false => rw [if_neg Bool.false_ne_true, abs_of_not_isSigned h hs]
  · simp only [if_neg hfull] at hplain
    exact absurd hplain Nat.toDigits_ne_nil

-- the digits `1.7976931348623157` do not fit into 53 bits, and are read as a neighbour
example : (Numeral.ofFloat 1.7976931348623157).toFloat? = some 1.7976931348623155 := by
  decide +kernel

end SheetTemplate.Json
