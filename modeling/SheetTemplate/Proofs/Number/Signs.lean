import SheetTemplate.Number.Text
import SheetTemplate.Proofs.Number.Exactness

/-!
# Signs

A float that is not undefined has a sign, which is its sign bit (`isSigned_iff_of_hasSign`). A minus
in front of it changes the sign and nothing else, also of what is infinite (`isSigned_minus`), so
its text is the text without the minus behind a `-` (`chars_minus`). Digits are read as a float
without sign (`isSigned_ofScientific`).
-/

namespace SheetTemplate.Number

open Float.Model Float.Model.UnpackedFloat

/-- A value that is not undefined has this sign. -/
def HasSign (s : Sign) : UnpackedFloat → Prop
  | .infinity s' | .zero s' | .finite s' _ _ _ => s' = s
  | .notANumber => False

theorem exists_hasSign {u : UnpackedFloat} (h : u ≠ .notANumber) : ∃ s, HasSign s u := by
  cases u with
  | notANumber => exact absurd rfl h
  | infinity s | zero s | finite s _ _ _ => exact ⟨s, rfl⟩

/-! ### The sign bit -/

theorem toNat_packComponents_lt_iff (s : Sign) (e : BitVec 11) (m : BitVec 52) :
    2 ^ 63 ≤ (packComponents Format.binary64 s e m).toNat ↔ s = .negative := by
  have he := e.isLt
  have hm := m.isLt
  rw [toNat_packComponents]
  cases s with
  | negative =>
    simp only [signBits, iff_true]
    omega
  | positive =>
    simp only [signBits, reduceCtorEq, iff_false]
    omega

/-- The sign of what is packed is the sign bit. -/
theorem isSigned_pack_iff {s : Sign} {u : UnpackedFloat} (h : HasSign s u) :
    isSigned (.ofModel (.pack u)) = true ↔ s = .negative := by
  have hpack : 2 ^ 63 ≤ (UnpackedFloat.pack Format.binary64 u).toNat ↔ s = .negative := by
    unfold UnpackedFloat.pack
    cases u with
    | notANumber => exact h.elim
    | infinity s' | zero s' =>
      obtain rfl : s' = s := h
      exact toNat_packComponents_lt_iff _ _ _
    | finite s' m e hm =>
      obtain rfl : s' = s := h
      simp only []
      split_ifs
      · exact toNat_packComponents_lt_iff _ _ _
      · exact toNat_packComponents_lt_iff _ _ _
      · exact toNat_packComponents_lt_iff _ _ _
  rw [isSigned_eq, decide_eq_true_iff]
  exact hpack

theorem isSigned_pack_positive {u : UnpackedFloat} (h : HasSign .positive u) :
    isSigned (.ofModel (.pack u)) = false := by
  rw [Bool.eq_false_iff, Ne, isSigned_pack_iff h]
  exact Sign.noConfusion

/-- The sign of a float is its sign bit. -/
theorem isSigned_iff_of_hasSign {x : Float} {s : Sign} (h : HasSign s x.toModel.unpack) :
    isSigned x = true ↔ s = .negative := by
  have hlt := toNat_lt x.toModel.toBits.toBitVec
  have hs : signBits s = x.toBits.toNat / 2 ^ 63 * 2 ^ 63 := by
    have hsign := signBits_ofBitVec x.toModel.toBits.toBitVec
    change HasSign s (UnpackedFloat.unpack Format.binary64 x.toModel.toBits.toBitVec) at h
    rw [unpack_eq] at h
    split_ifs at h with h1 h2 h3 h4
    · obtain rfl : _ = s := h
      exact hsign
    · exact h.elim
    · obtain rfl : _ = s := h
      exact hsign
    · obtain rfl : _ = s := h
      exact hsign
    · obtain rfl : _ = s := h
      exact hsign
  change x.toBits.toNat < 2 ^ 64 at hlt
  rw [isSigned_eq, decide_eq_true_iff]
  cases s with
  | negative =>
    simp only [signBits] at hs
    simp only [iff_true]
    omega
  | positive =>
    simp only [signBits] at hs
    simp only [reduceCtorEq, iff_false]
    omega

/-! ### Minus -/

theorem hasSign_neg {s : Sign} {u : UnpackedFloat} (h : HasSign s u) : HasSign (-s) u.neg := by
  cases u with
  | notANumber => exact h.elim
  | infinity s' | zero s' | finite s' _ _ _ => exact congrArg Neg.neg h

/-- A minus changes the sign of what is not undefined. -/
theorem isSigned_minus {x : Float} (h : x.isNaN = false) : isSigned (-x) = !isSigned x := by
  obtain ⟨s, hs⟩ := exists_hasSign (isNaN_eq_false_iff.1 h)
  have hneg : isSigned (-x) = true ↔ -s = .negative := isSigned_pack_iff (hasSign_neg hs)
  rw [Bool.eq_iff_iff, hneg, Bool.not_eq_true', Bool.eq_false_iff, Ne, isSigned_iff_of_hasSign hs]
  cases s with
  | negative => exact iff_of_false Sign.noConfusion (not_not_intro rfl)
  | positive => exact iff_of_true rfl Sign.noConfusion

theorem unpack_pack_infinity (s : Sign) :
    (Float.Model.pack (.infinity s)).unpack = .infinity s := by
  cases s <;> rfl

theorem isInf_minus {x : Float} (h : x.isInf = true) : (-x).isInf = true := by
  change x.toModel.unpack.isInf = true at h
  change (Float.Model.pack x.toModel.unpack.neg).unpack.isInf = true
  cases hu : x.toModel.unpack with
  | infinity s =>
    show (Float.Model.pack (.infinity (-s))).unpack.isInf = true
    rw [unpack_pack_infinity]
    rfl
  | _ =>
    rw [hu] at h
    cases h

/-- **The text of a number behind a minus** is its own text behind a minus sign. -/
theorem chars_minus {x : Float} (h : x.isNaN = false) (hs : isSigned x = false) :
    chars (-x) = '-' :: chars x := by
  have hneg : isSigned (-x) = true := by rw [isSigned_minus h, hs]; rfl
  have hnan := isNaN_neg h
  cases hinf : x.isInf with
  | true =>
    rw [chars, chars, h, hnan, hinf, isInf_minus hinf, sign, sign, hneg, hs]
    rfl
  | false =>
    have hfin := isFinite_of_not_isNaN_of_not_isInf h hinf
    rw [chars, chars, h, hnan, hinf, isInf_of_isFinite (isFinite_neg hfin), abs_neg hfin, sign,
      sign, hneg, hs]
    rfl

/-! ### Digits -/

theorem hasSign_roundWithAccuracy (s : Sign) (m : Nat) (e : Int) (a : Accuracy) :
    HasSign s (roundWithAccuracy Format.binary64 s m e a) := by
  unfold roundWithAccuracy
  simp only []
  split_ifs <;> rfl

theorem isSigned_toFloat (n : UInt64) : isSigned n.toFloat = false := by
  have hsign : HasSign .positive (UnpackedFloat.ofUInt64 Format.binary64 n) := by
    unfold UnpackedFloat.ofUInt64 UnpackedFloat.ofNat UnpackedFloat.ofInt UnpackedFloat.normalize
    split
    · rename_i hlt
      rw [Int.compare_eq_lt] at hlt
      exact absurd hlt (by omega)
    · rfl
    · exact hasSign_roundWithAccuracy _ _ _ _
  exact isSigned_pack_positive hsign

/-- A quotient of floats without sign has no sign, where the divisor is a positive float. -/
theorem isSigned_div {x y : Float} {m : Nat} {e : Int} (hx : x.isNaN = false)
    (hs : isSigned x = false) (hy : IsPositive y m e) : isSigned (x / y) = false := by
  obtain ⟨s, hu⟩ := exists_hasSign (isNaN_eq_false_iff.1 hx)
  obtain rfl : s = .positive := by
    rw [Bool.eq_false_iff, Ne, isSigned_iff_of_hasSign hu] at hs
    cases s with
    | negative => exact absurd rfl hs
    | positive => rfl
  obtain ⟨hm, hy⟩ := hy
  have hsign : HasSign .positive
      (UnpackedFloat.div Format.binary64 x.toModel.unpack y.toModel.unpack) := by
    rw [hy]
    cases hux : x.toModel.unpack with
    | notANumber => exact absurd hux (isNaN_eq_false_iff.1 hx)
    | infinity s' | zero s' =>
      rw [hux] at hu
      obtain rfl : s' = .positive := hu
      rfl
    | finite s' m' e' hm' =>
      rw [hux] at hu
      obtain rfl : s' = .positive := hu
      exact hasSign_roundWithAccuracy _ _ _ _
  exact isSigned_pack_positive hsign

/-- **Digits are read without a sign.** -/
theorem isSigned_ofScientific (n k : Nat) : isSigned (Float.ofScientific n true k) = false := by
  unfold Float.ofScientific
  by_cases hfast : n < 2 ^ 53 ∧ k ≤ 22
  · obtain ⟨m, e, hten, -⟩ := exists_isPositive_powerOfTen (Nat.lt_succ_of_le hfast.2)
    rw [dif_pos hfast, if_pos rfl]
    exact isSigned_div (isNaN_toFloat _) (isSigned_toFloat _) hten
  · rw [dif_neg hfast]
    have hsign : HasSign .positive
        (UnpackedFloat.ofScientific Format.binary64 n (Int.negOfNat k)) := by
      unfold UnpackedFloat.ofScientific
      split_ifs
      · rfl
      · rfl
      · rfl
      · exact hasSign_roundWithAccuracy _ _ _ _
      · exact hasSign_roundWithAccuracy _ _ _ _
    exact isSigned_pack_positive hsign

end SheetTemplate.Number
