import SheetTemplate.Proofs.Number.Exactness

/-!
# The range of floats

Where rounding stays among the finite floats. The number of steps is cut to 53 digits and goes up by
at most one step, so the leading digit moves by at most one place (`roundWithAccuracy_eq`); below
`2 ^ 1023` the result is finite (`isFinite_round`). So whole numbers of 64 bits are finite floats
(`isFinite_ofNat`), and so are quotients by a float of at least 2 (`isFinite_div`).
-/

namespace SheetTemplate.Number

open Float.Model Float.Model.UnpackedFloat

/-! ### One rounding -/

theorem mantissa_shiftRight (em : ExtendedMantissa) (k : Nat) :
    (em >>> k).mantissa = em.mantissa / 2 ^ k := by
  show (k.repeat ExtendedMantissa.shiftRightOne em).mantissa = _
  induction k with
  | zero => simp [Nat.repeat]
  | succ k ih =>
    rw [Nat.repeat, ExtendedMantissa.shiftRightOne, ih, Nat.div_div_eq_div_mul, ← Nat.pow_succ]

theorem roundedMantissa_bounds (em : ExtendedMantissa) :
    em.mantissa ≤ em.roundedMantissa ∧ em.roundedMantissa ≤ em.mantissa + 1 := by
  have hparity := Nat.mod_two_eq_zero_or_one em.mantissa
  obtain ⟨m, round, sticky⟩ := em
  cases round <;> cases sticky <;>
    simp only [ExtendedMantissa.roundedMantissa, ExtendedMantissa.accuracy,
      Accuracy.roundToNearestEven] <;> omega

theorem mantissa_ofMantissaAndAccuracy (m : Nat) (a : Accuracy) :
    (ExtendedMantissa.ofMantissaAndAccuracy m a).mantissa = m := by
  cases a with
  | exact => rfl
  | inexact o => cases o <;> rfl

/-- The places that are cut from some steps. -/
def placesCut (m : Nat) (e : Int) : Nat :=
  (Format.binary64.targetExponent (totalExponent m e) - e).toNat

theorem le_scale_of_cut (m : Nat) (e : Int) :
    -1074 ≤ e + placesCut m e ∧ totalExponent m e ≤ e + placesCut m e + 53 := by
  rw [placesCut, targetExponent_eq]
  omega

theorem scale_of_cut_le {m : Nat} {e n : Int} (he : e ≤ n) (hn : -1074 ≤ n)
    (htotal : totalExponent m e ≤ n + 53) : e + placesCut m e ≤ n := by
  rw [placesCut, targetExponent_eq]
  omega

/-- What is left of some steps has at most 53 digits. -/
theorem div_two_pow_lt (m : Nat) (e : Int) : m / 2 ^ placesCut m e < 2 ^ 53 := by
  have hcut := (le_scale_of_cut m e).2
  rw [totalExponent] at hcut
  rw [Nat.div_lt_iff_lt_mul (by positivity), ← Nat.pow_add]
  exact Nat.lt_log2_self.trans_le (Nat.pow_le_pow_right (by decide) (by omega))

theorem shiftToTargetExponent_self {r : Nat} {e : Int} (hr : r < 2 ^ 53) (he : -1074 ≤ e) :
    shiftToTargetExponent Format.binary64 r e .exact = (⟨r, false, false⟩, e) := by
  have hlog : r.log2 < 53 := by
    rcases Nat.eq_zero_or_pos r with rfl | hpos
    · decide
    · exact (Nat.log2_lt (Nat.ne_of_gt hpos)).2 hr
  have hcut : placesCut r e = 0 := by
    rw [placesCut, targetExponent_eq, totalExponent]
    omega
  have hshift := shiftRight_mul_two_pow r 0
  rw [pow_zero, Nat.mul_one] at hshift
  unfold placesCut at hcut
  unfold shiftToTargetExponent shiftToExponent
  simp only [hcut, ExtendedMantissa.ofMantissaAndAccuracy, hshift, Nat.cast_zero, Int.add_zero]

/-- A step too many for 53 digits is half as many steps of double size. -/
theorem shiftToTargetExponent_carry {e : Int} (he : -1074 ≤ e) :
    shiftToTargetExponent Format.binary64 (2 ^ 53) e .exact = (⟨2 ^ 52, false, false⟩, e + 1) := by
  have hcut : placesCut (2 ^ 53) e = 1 := by
    rw [placesCut, targetExponent_eq, totalExponent, Nat.log2_two_pow]
    omega
  have hshift := shiftRight_mul_two_pow (2 ^ 52) 1
  rw [← Nat.pow_add] at hshift
  unfold placesCut at hcut
  unfold shiftToTargetExponent shiftToExponent
  simp only [hcut, ExtendedMantissa.ofMantissaAndAccuracy, hshift, Nat.cast_one]

/-- **What rounding does**: places are cut, and the steps that are left may go up by one. -/
theorem roundWithAccuracy_eq (s : Sign) (m : Nat) (e : Int) (a : Accuracy) : ∃ r,
    m / 2 ^ placesCut m e ≤ r ∧ r ≤ m / 2 ^ placesCut m e + 1 ∧
      roundWithAccuracy Format.binary64 s m e a =
        if h : r = 0 then .zero s
        else if r < 2 ^ 53 then .finite s r (e + placesCut m e) (Nat.pos_of_ne_zero h)
        else .finite s (2 ^ 52) (e + placesCut m e + 1) (by decide) := by
  obtain ⟨em, hem⟩ : ∃ em, em = ExtendedMantissa.ofMantissaAndAccuracy m a >>> placesCut m e :=
    ⟨_, rfl⟩
  have hmantissa : em.mantissa = m / 2 ^ placesCut m e := by
    rw [hem, mantissa_shiftRight, mantissa_ofMantissaAndAccuracy]
  have hfirst : shiftToTargetExponent Format.binary64 m e a = (em, e + placesCut m e) := by
    rw [hem]
    rfl
  have hscale := (le_scale_of_cut m e).1
  obtain ⟨hlow, hhigh⟩ := roundedMantissa_bounds em
  refine ⟨em.roundedMantissa, hmantissa ▸ hlow, hmantissa ▸ hhigh, ?_⟩
  have hlt := div_two_pow_lt m e
  unfold roundWithAccuracy
  simp only [hfirst]
  by_cases hsmall : em.roundedMantissa < 2 ^ 53
  · simp only [shiftToTargetExponent_self hsmall hscale, if_pos hsmall]
  · have hcarry : em.roundedMantissa = 2 ^ 53 := by omega
    simp only [hcarry, shiftToTargetExponent_carry hscale]
    rfl

/-! ### Finite results -/

/-- What is packed on a scale of a float is finite. -/
theorem isFinite_pack_finite {m : Nat} {e : Int} (s : Sign) (hm : 0 < m) (he : e ≤ 971) :
    (Float.ofModel (.pack (.finite s m e hm))).isFinite = true := by
  rw [isFinite_iff]
  show (UnpackedFloat.pack Format.binary64 (.finite s m e hm)).toNat / 2 ^ 52 % 2 ^ 11 ≠ 2047
  have hbias : (Format.binary64.exponentBias : Int) = 1023 := rfl
  unfold UnpackedFloat.pack
  simp only [hbias, Format.mantissaBits]
  rw [if_neg (by omega)]
  have hs : signBits s = 0 ∨ signBits s = 2 ^ 63 := by cases s <;> simp [signBits]
  split_ifs
  · rw [toNat_packComponents, BitVec.toNat_ofNat, BitVec.toNat_ofNat]
    omega
  · rw [toNat_packComponents, BitVec.toNat_ofNat, BitVec.toNat_ofNat]
    omega

theorem isFinite_pack_zero (s : Sign) : (Float.ofModel (.pack (.zero s))).isFinite = true := by
  cases s <;> rfl

/-- **A result below `2 ^ 1023` is finite.** -/
theorem isFinite_round (s : Sign) {m : Nat} {e : Int} (a : Accuracy) (he : e ≤ 970)
    (htotal : totalExponent m e ≤ 1023) :
    (Float.ofModel (.pack (roundWithAccuracy Format.binary64 s m e a))).isFinite = true := by
  obtain ⟨r, -, -, hround⟩ := roundWithAccuracy_eq s m e a
  have hscale : e + placesCut m e ≤ 970 := scale_of_cut_le he (by decide) htotal
  rw [hround]
  split_ifs with hzero hsmall
  · exact isFinite_pack_zero s
  · exact isFinite_pack_finite s _ (by omega)
  · exact isFinite_pack_finite s _ (by omega)

/-- A result between the smallest full float and `2 ^ 1023` is a full float, not below the place of
its leading digit. -/
theorem exists_canonical_round (s : Sign) {m : Nat} {e : Int} (a : Accuracy) (hm : 52 ≤ m.log2)
    (hlow : -1021 ≤ totalExponent m e) (hhigh : totalExponent m e ≤ 1023) :
    ∃ M E, ∃ h : Canonical M E,
      roundWithAccuracy Format.binary64 s m e a = .finite s M E h.pos ∧
        totalExponent m e ≤ totalExponent M E := by
  obtain ⟨r, hr, hr', hround⟩ := roundWithAccuracy_eq s m e a
  have hcut : (placesCut m e : Int) = m.log2 - 52 := by
    rw [totalExponent] at hlow
    rw [placesCut, targetExponent_eq, totalExponent]
    omega
  have hm0 : m ≠ 0 := by
    rintro rfl
    simp at hm
  have hfull : 2 ^ 52 ≤ r := by
    refine le_trans ?_ hr
    rw [Nat.le_div_iff_mul_le (by positivity), ← Nat.pow_add]
    have hlog : 52 + placesCut m e = m.log2 := by omega
    rw [hlog]
    exact Nat.log2_self_le hm0
  have hlog : 52 ≤ r.log2 := (Nat.le_log2 (by omega)).2 hfull
  rw [totalExponent] at hlow hhigh ⊢
  rw [hround, dif_neg (by omega)]
  split_ifs with hsmall
  · refine ⟨r, _, ⟨by omega, hsmall, by omega, by omega, .inl hfull⟩, rfl, ?_⟩
    rw [totalExponent]
    omega
  · refine ⟨2 ^ 52, _, ⟨by decide, by decide, by omega, by omega, .inl le_rfl⟩, rfl, ?_⟩
    rw [totalExponent, Nat.log2_two_pow]
    omega

/-! ### Quotients -/

theorem totalExponent_le_of_canonical {m : Nat} {e : Int} (h : Canonical m e) :
    totalExponent m e ≤ 1024 := by
  have hlog := (Nat.log2_lt (Nat.ne_of_gt h.pos)).2 h.lt
  have hscale := h.le_maxScale
  rw [totalExponent]
  omega

/-- The leading digit of a quotient is at most one place above that of the leading digits. -/
theorem totalExponent_div_le {m₁ m₂ k : Nat} {e₁ e₂ e : Int} (h₂ : 0 < m₂)
    (he : e + k = e₁ - e₂) (hpos : 0 < m₁ * 2 ^ k / m₂) : totalExponent (m₁ * 2 ^ k / m₂) e ≤
      totalExponent m₁ e₁ - totalExponent m₂ e₂ + 1 := by
  have hle : scaled (m₁ * 2 ^ k / m₂) e * scaled m₂ e₂ ≤ scaled m₁ e₁ := by
    have hsplit : scaled m₁ e₁ = scaled (m₁ * 2 ^ k) (e + e₂) := by
      rw [scaled_mul_two_pow]
      congr 1
      omega
    rw [hsplit, ← scaled_mul, scaled, scaled]
    have hdiv : ((m₁ * 2 ^ k / m₂ * m₂ : Nat) : ℚ) ≤ (m₁ * 2 ^ k : Nat) :=
      Nat.cast_le.2 (Nat.div_mul_le_self _ _)
    exact mul_le_mul_of_nonneg_right hdiv (zpow_pos two_pos _).le
  have hlt : (2 : ℚ) ^ ((m₁ * 2 ^ k / m₂).log2 + e + (m₂.log2 + e₂)) < 2 ^ (m₁.log2 + 1 + e₁) := by
    calc (2 : ℚ) ^ ((m₁ * 2 ^ k / m₂).log2 + e + (m₂.log2 + e₂))
        = 2 ^ ((m₁ * 2 ^ k / m₂).log2 + e) * 2 ^ (m₂.log2 + e₂) := zpow_add₀ two_ne_zero _ _
      _ ≤ scaled (m₁ * 2 ^ k / m₂) e * scaled m₂ e₂ :=
          mul_le_mul (two_zpow_le_scaled hpos e) (two_zpow_le_scaled h₂ e₂)
            (zpow_pos two_pos _).le (scaled_pos hpos e).le
      _ ≤ scaled m₁ e₁ := hle
      _ < 2 ^ (m₁.log2 + 1 + e₁) := scaled_lt_two_zpow m₁ e₁
  rw [zpow_lt_zpow_iff_right₀ one_lt_two] at hlt
  simp only [totalExponent]
  omega

/-- **A quotient by a float of at least 2 is finite.** -/
theorem isFinite_div {x y : Float} {m : Nat} {e : Int} (hx : x.isFinite = true)
    (hy : IsPositive y m e) (htwo : 2 ≤ totalExponent m e) : (x / y).isFinite = true := by
  obtain ⟨hm, hyu⟩ := hy
  show (Float.ofModel (.pack (UnpackedFloat.div Format.binary64 x.toModel.unpack
    y.toModel.unpack))).isFinite = true
  rw [hyu]
  rcases unpack_of_isFinite hx with ⟨s, hu⟩ | ⟨s, m₁, e₁, hm₁, hu⟩
  · rw [hu]
    exact isFinite_pack_zero _
  · rw [hu]
    have htop := totalExponent_le_of_canonical (toBits_of_unpack_finite hu).1
    simp only [UnpackedFloat.div, divCore]
    obtain ⟨T, hT⟩ : ∃ T, T = min (e₁ - e) (Format.binary64.targetExponent
      (totalExponent m₁ e₁ - totalExponent m e)) := ⟨_, rfl⟩
    rw [← hT, Nat.shiftLeft_eq]
    have hle : T ≤ 970 := by
      rw [hT, targetExponent_eq]
      omega
    refine isFinite_round _ _ hle ?_
    rcases Nat.eq_zero_or_pos (m₁ * 2 ^ (e₁ - e - T).toNat / m) with hzero | hpos
    · rw [hzero, totalExponent, Nat.log2_zero]
      omega
    · have htotal : totalExponent _ T ≤ totalExponent m₁ e₁ - totalExponent m e + 1 :=
        totalExponent_div_le hm (by omega) hpos
      omega

/-! ### Products -/

/-- A product of finite floats is not undefined. -/
theorem isNaN_mul {x y : Float} {m : Nat} {e : Int} (hx : x.isFinite = true)
    (hy : IsPositive y m e) : (x * y).isNaN = false := by
  obtain ⟨hm, hyu⟩ := hy
  rw [isNaN_eq_false_iff]
  refine unpack_pack_ne_notANumber ?_
  rw [hyu]
  rcases unpack_of_isFinite hx with ⟨s, hu⟩ | ⟨s, m₁, e₁, hm₁, hu⟩
  · rw [hu]
    exact UnpackedFloat.noConfusion
  · rw [hu]
    exact roundWithAccuracy_ne_notANumber _ _ _ _

/-- A product that is a float is this float. -/
theorem mul_eq {x y z : Float} {m₁ m₂ m : Nat} {e₁ e₂ e : Int} (hx : IsPositive x m₁ e₁)
    (hy : IsPositive y m₂ e₂) (hz : IsPositive z m e) (h : scaled m₁ e₁ * scaled m₂ e₂ = scaled m e)
    (he : e₁ + e₂ ≤ e) : x * y = z := by
  refine IsPositive.eq ?_ hz
  obtain ⟨h₁, hx⟩ := hx
  obtain ⟨h₂, hy⟩ := hy
  have hmul : x * y = .ofModel (.pack (.finite .positive m e hz.canonical.pos)) := by
    rw [← roundWithAccuracy_exact .positive (Nat.mul_pos h₁ h₂) hz.canonical
      ((scaled_mul m₁ m₂ e₁ e₂).trans h) he]
    show Float.ofModel (.pack (UnpackedFloat.mul Format.binary64 x.toModel.unpack
      y.toModel.unpack)) = _
    rw [hx, hy]
    rfl
  exact hmul ▸ isPositive_pack hz.canonical

/-! ### Whole numbers -/

theorem totalExponent_mul_two_pow {n : Nat} (hn : 0 < n) (k : Nat) (e : Int) :
    totalExponent (n * 2 ^ k) e = totalExponent n (e + k) := by
  have hpos : 0 < n * 2 ^ k := by positivity
  exact totalExponent_congr hpos hn (scaled_mul_two_pow n k e)

/-- Whole numbers below `2 ^ 1023` that are not read by a table are floats, not below the place of
their leading digit. -/
theorem exists_isPositive_ofScientific {n k : Nat} (hn : 0 < n)
    (hslow : ¬ (n < 2 ^ 53 ∧ k ≤ 22)) (hlog : (n * 10 ^ k).log2 < 1023) :
    ∃ m e, IsPositive (Float.ofScientific n false k) m e ∧
      (n * 10 ^ k).log2 < totalExponent m e := by
  have hpos : 0 < n * 10 ^ k := by positivity
  have hk : k < (n * 10 ^ k).log2 + 1 := by
    rw [← Nat.pow_lt_pow_iff_right (a := 2) (by decide)]
    calc 2 ^ k ≤ 10 ^ k := Nat.pow_le_pow_left (by decide) k
      _ ≤ n * 10 ^ k := Nat.le_mul_of_pos_left _ hn
      _ < 2 ^ ((n * 10 ^ k).log2 + 1) := Nat.lt_log2_self
  have hsteps : n <<< 53 * 10 ^ k = n * 10 ^ k * 2 ^ 53 := by
    rw [Nat.shiftLeft_eq]
    ring
  have htotal : totalExponent (n * 10 ^ k * 2 ^ 53) (-53 + 0) = (n * 10 ^ k).log2 + 1 := by
    rw [totalExponent_mul_two_pow hpos, totalExponent]
    omega
  have hmlog : 52 ≤ (n * 10 ^ k * 2 ^ 53).log2 := by
    rw [totalExponent] at htotal
    omega
  have hlow : -1021 ≤ totalExponent (n * 10 ^ k * 2 ^ 53) (-53 + 0) := by omega
  have hhigh : totalExponent (n * 10 ^ k * 2 ^ 53) (-53 + 0) ≤ 1023 := by omega
  obtain ⟨M, E, hc, hround, hle⟩ := exists_canonical_round .positive .exact hmlog hlow hhigh
  have hmodel : UnpackedFloat.ofScientific Format.binary64 n (Int.ofNat k) =
      .finite .positive M E hc.pos := by
    have hbig : (2 : Int) ^ Format.binary64.exponentBits = 2048 := rfl
    unfold UnpackedFloat.ofScientific
    rw [dif_neg (Nat.ne_of_gt hn), if_neg (by simp only [Int.ofNat_eq_natCast]; omega),
      if_neg (by simp only [Int.ofNat_eq_natCast]; omega), if_pos (by simp), ← hround, ← hsteps]
    rfl
  refine ⟨M, E, ?_, by omega⟩
  unfold Float.ofScientific
  rw [dif_neg hslow]
  show IsPositive (.ofModel (.pack (UnpackedFloat.ofScientific Format.binary64 n
    (Int.ofNat k)))) M E
  rw [hmodel]
  exact isPositive_pack hc

/-- A float that is a small whole number has no scale above that of whole numbers. -/
theorem scale_le_zero {m n : Nat} {e : Int} (hc : Canonical m e) (h : scaled m e = n)
    (hlt : n < 2 ^ 53) : e ≤ 0 := by
  by_contra hscale
  have hvalue : scaled n 0 = scaled m e := by rw [h, scaled, zpow_zero, mul_one]
  have hn : n = m * 2 ^ (e - 0).toNat := eq_mul_of_scaled_eq hvalue (by omega)
  have htwo : 2 ^ 1 ≤ 2 ^ (e - 0).toNat := Nat.pow_le_pow_right (by decide) (by omega)
  have hfull : 2 ^ 52 ≤ m := hc.full.resolve_right (by omega)
  have hle : 2 ^ 52 * 2 ^ 1 ≤ n := hn ▸ Nat.mul_le_mul hfull htwo
  omega

/-- Below `2 ^ 53`, a whole number is read as the float that it is. -/
theorem ofNat_eq_toFloat {n : Nat} (hn : 0 < n) (hlt : n < 2 ^ 53) :
    Float.ofNat n = n.toUInt64.toFloat := by
  obtain ⟨m, e, hx, -⟩ := exists_isPositive_toFloat hn hlt
  obtain ⟨m₁, e₁, hone, hone'⟩ := exists_isPositive_powerOfTen (n := 0) (by decide)
  have hscale : e₁ ≤ 0 := scale_le_zero (n := 1) hone.canonical (by simpa using hone') (by decide)
  show Float.ofScientific n false 0 = _
  unfold Float.ofScientific
  rw [dif_pos ⟨hlt, Nat.zero_le _⟩, if_neg Bool.false_ne_true]
  exact mul_eq hx hone hx (by rw [hone', pow_zero, mul_one]) (by omega)

/-- The powers of ten in the table are those that are read. -/
theorem ofScientific_one {k : Nat} (hk : k < Float.exactlyRepresentablePowersOfTen.size) :
    Float.ofScientific 1 false k = Float.exactlyRepresentablePowersOfTen[k] := by
  obtain ⟨m, e, hone, hone'⟩ := exists_isPositive_toFloat (n := 1) (by decide) (by decide)
  obtain ⟨m₁, e₁, hten, -⟩ := exists_isPositive_powerOfTen hk
  have hscale : e ≤ 0 := scale_le_zero hone.canonical hone' (by decide)
  unfold Float.ofScientific
  rw [dif_pos ⟨by decide, Nat.le_of_lt_succ hk⟩, if_neg Bool.false_ne_true]
  exact mul_eq hone hten hten (by rw [hone', Nat.cast_one, one_mul]) (by omega)

theorem IsPositive.isFinite {x : Float} {m : Nat} {e : Int} (h : IsPositive x m e) :
    x.isFinite = true := by
  obtain ⟨hm, hu⟩ := h
  show x.toModel.unpack.isFinite = true
  rw [hu]
  rfl

/-- **A whole number of 64 bits is read as a finite float.** -/
theorem isFinite_ofNat {n : Nat} (hlt : n < 2 ^ 64) : (Float.ofNat n).isFinite = true := by
  rcases Nat.eq_zero_or_pos n with rfl | hn
  · decide
  · by_cases hsmall : n < 2 ^ 53
    · obtain ⟨m, e, hx, -⟩ := exists_isPositive_toFloat hn hsmall
      rw [ofNat_eq_toFloat hn hsmall]
      exact hx.isFinite
    · have hlog : (n * 10 ^ 0).log2 < 1023 := by
        rw [pow_zero, Nat.mul_one]
        exact ((Nat.log2_lt (Nat.ne_of_gt hn)).2 hlt).trans (by decide)
      obtain ⟨m, e, hx, -⟩ := exists_isPositive_ofScientific hn (fun h => hsmall h.1) hlog
      exact hx.isFinite

/-- The place of the leading digit of a power of ten. -/
theorem two_le_totalExponent {m k : Nat} {e : Int} (hk : 0 < k) (h : scaled m e = 10 ^ k) :
    2 ≤ totalExponent m e := by
  have hlt : (2 : ℚ) ^ (1 : Int) < 2 ^ (m.log2 + 1 + e) := by
    refine lt_of_lt_of_le (b := (10 : ℚ) ^ 1) (by norm_num) ?_
    calc (10 : ℚ) ^ 1 ≤ 10 ^ k := pow_le_pow_right₀ (by norm_num) hk
      _ = scaled m e := h.symm
      _ ≤ 2 ^ (m.log2 + 1 + e) := (scaled_lt_two_zpow m e).le
  rw [zpow_lt_zpow_iff_right₀ one_lt_two] at hlt
  rw [totalExponent]
  omega

/-- **The powers of ten up to `10 ^ 308` are read as floats**, and but for the first one they are at
least 2. -/
theorem exists_isPositive_tenPow {k : Nat} (hk : k ≤ 308) :
    ∃ m e, IsPositive (Float.ofScientific 1 false k) m e ∧ (0 < k → 2 ≤ totalExponent m e) := by
  rcases Nat.lt_or_ge k 23 with hsmall | hlarge
  · obtain ⟨m, e, hten, hvalue⟩ := exists_isPositive_powerOfTen (n := k) hsmall
    rw [ofScientific_one (k := k) hsmall]
    exact ⟨m, e, hten, fun hpos => two_le_totalExponent hpos hvalue⟩
  · rcases Nat.lt_or_ge k 308 with hlt | hge
    · have hlogs : ∀ i : Fin 308, (10 ^ i.val).log2 < 1023 := by decide +kernel
      have hlog := hlogs ⟨k, hlt⟩
      have hone : 1 ≤ (10 ^ k).log2 := by
        rw [Nat.le_log2 (by positivity)]
        exact le_trans (by decide : 2 ^ 1 ≤ 10 ^ 1) (Nat.pow_le_pow_right (by decide) (by omega))
      rw [← Nat.one_mul (10 ^ k)] at hlog hone
      obtain ⟨m, e, hten, hle⟩ := exists_isPositive_ofScientific one_pos (by omega) hlog
      exact ⟨m, e, hten, fun _ => by omega⟩
    · -- the last one lies above `2 ^ 1023`
      obtain rfl : k = 308 := by omega
      have hspec : (Float.ofScientific 1 false 308).isFinite = true ∧
          isSigned (Float.ofScientific 1 false 308) = false ∧ Float.ofScientific 1 false 308 ≠ 0 ∧
          2 ≤ totalExponent (Binary.ofFloat (Float.ofScientific 1 false 308)).steps
            (Binary.ofFloat (Float.ofScientific 1 false 308)).scale := by
        decide +kernel
      exact ⟨_, _, isPositive_ofFloat hspec.1 hspec.2.1 hspec.2.2.1, fun _ => hspec.2.2.2⟩

end SheetTemplate.Number
