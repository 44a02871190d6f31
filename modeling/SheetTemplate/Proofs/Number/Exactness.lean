import SheetTemplate.Proofs.Number.Packing

/-!
# Exact results

An operation on floats whose exact result is a float gives that float. Here this is said of the
rounding of a whole number of steps, of quotients, and of reading a decimal: digits that spell the
value of a positive float are read as this float (`ofScientific_eq`). Digits that spell no float are
read as some number or as an infinite one, but never as an undefined value (`isNaN_ofScientific`).
-/

namespace SheetTemplate.Number

open Float.Model Float.Model.UnpackedFloat

/-- The number `m · 2 ^ e`. -/
def scaled (m : Nat) (e : Int) : ℚ := m * 2 ^ e

theorem scaled_pos {m : Nat} (hm : 0 < m) (e : Int) : 0 < scaled m e := by
  have : (0 : ℚ) < m := Nat.cast_pos.2 hm
  unfold scaled
  positivity

/-- Shifting the steps is scaling by a power of two. -/
theorem scaled_mul_two_pow (m k : Nat) (e : Int) : scaled (m * 2 ^ k) e = scaled m (e + k) := by
  unfold scaled
  rw [zpow_add₀ two_ne_zero, Nat.cast_mul, Nat.cast_pow, Nat.cast_ofNat, zpow_natCast]
  ring

theorem scaled_mul (m m' : Nat) (e e' : Int) :
    scaled (m * m') (e + e') = scaled m e * scaled m' e' := by
  unfold scaled
  rw [zpow_add₀ two_ne_zero, Nat.cast_mul]
  ring

theorem scaled_inj {m m' : Nat} {e : Int} (h : scaled m e = scaled m' e) : m = m' := by
  unfold scaled at h
  have h2 : (2 : ℚ) ^ e ≠ 0 := zpow_ne_zero _ two_ne_zero
  exact_mod_cast mul_right_cancel₀ h2 h

/-- Equal numbers on a finer scale. -/
theorem eq_mul_of_scaled_eq {m m' : Nat} {e e' : Int} (h : scaled m e = scaled m' e')
    (he : e ≤ e') : m = m' * 2 ^ (e' - e).toNat := by
  apply scaled_inj (e := e)
  rw [scaled_mul_two_pow, h]
  congr 1
  omega

/-! ### The place of the leading digit -/

theorem two_zpow_le_scaled {m : Nat} (hm : 0 < m) (e : Int) :
    (2 : ℚ) ^ (m.log2 + e) ≤ scaled m e := by
  have hle : ((2 ^ m.log2 : Nat) : ℚ) ≤ m := Nat.cast_le.2 (Nat.log2_self_le (Nat.ne_of_gt hm))
  unfold scaled
  rw [zpow_add₀ two_ne_zero, zpow_natCast]
  push_cast at hle
  have : (0 : ℚ) < 2 ^ e := zpow_pos two_pos _
  exact mul_le_mul_of_nonneg_right hle this.le

theorem scaled_lt_two_zpow (m : Nat) (e : Int) : scaled m e < (2 : ℚ) ^ (m.log2 + 1 + e) := by
  have hlt : (m : ℚ) < ((2 ^ (m.log2 + 1) : Nat) : ℚ) := Nat.cast_lt.2 Nat.lt_log2_self
  have : (0 : ℚ) < 2 ^ e := zpow_pos two_pos _
  unfold scaled
  rw [zpow_add₀ two_ne_zero]
  push_cast at hlt
  exact_mod_cast mul_lt_mul_of_pos_right hlt this

/-- Equal numbers have their leading digit in the same place. -/
theorem totalExponent_congr {m m' : Nat} {e e' : Int} (hm : 0 < m) (hm' : 0 < m')
    (h : scaled m e = scaled m' e') : totalExponent m e = totalExponent m' e' := by
  have hlt := (two_zpow_le_scaled hm e).trans_lt (h ▸ scaled_lt_two_zpow m' e')
  have hlt' := (two_zpow_le_scaled hm' e').trans_lt (h ▸ scaled_lt_two_zpow m e)
  rw [zpow_lt_zpow_iff_right₀ one_lt_two] at hlt hlt'
  unfold totalExponent
  omega

theorem targetExponent_eq (n : Int) :
    Format.binary64.targetExponent n = max (n - 53) (-1074) := rfl

theorem targetExponent_of_canonical {m : Nat} {e : Int} (h : Canonical m e) :
    Format.binary64.targetExponent (totalExponent m e) = e := by
  have hlog : m.log2 < 53 := (Nat.log2_lt (Nat.ne_of_gt h.pos)).2 h.lt
  have hlow := h.minScale_le
  rw [targetExponent_eq, totalExponent]
  rcases h.full with hfull | rfl
  · rw [log2_of_canonical h hfull]
    omega
  · omega

/-! ### Rounding -/

/-- Zeros shifted out leave no trace. -/
theorem shiftRight_mul_two_pow (m k : Nat) :
    (⟨m * 2 ^ k, false, false⟩ : ExtendedMantissa) >>> k = ⟨m, false, false⟩ := by
  show k.repeat ExtendedMantissa.shiftRightOne _ = _
  induction k generalizing m with
  | zero => simp [Nat.repeat]
  | succ k ih =>
    have h := ih (m * 2)
    rw [Nat.mul_assoc, ← Nat.pow_succ'] at h
    rw [Nat.repeat, h]
    simp [ExtendedMantissa.shiftRightOne]

theorem shiftToTargetExponent_exact {m M : Nat} {e E : Int} (hm : 0 < m) (h : Canonical M E)
    (heq : scaled m e = scaled M E) (he : e ≤ E) :
    shiftToTargetExponent Format.binary64 m e .exact = (⟨M, false, false⟩, E) := by
  unfold shiftToTargetExponent shiftToExponent
  rw [totalExponent_congr hm h.pos heq, targetExponent_of_canonical h, eq_mul_of_scaled_eq heq he]
  simp only [ExtendedMantissa.ofMantissaAndAccuracy, shiftRight_mul_two_pow, Prod.mk.injEq,
    true_and]
  omega

/-- Steps that are those of a float are rounded to this float. -/
theorem roundWithAccuracy_exact {m M : Nat} {e E : Int} (s : Sign) (hm : 0 < m)
    (h : Canonical M E) (heq : scaled m e = scaled M E) (he : e ≤ E) :
    roundWithAccuracy Format.binary64 s m e .exact = .finite s M E h.pos := by
  have hrounded : (⟨M, false, false⟩ : ExtendedMantissa).roundedMantissa = M := rfl
  simp only [roundWithAccuracy, shiftToTargetExponent_exact hm h heq he, hrounded,
    shiftToTargetExponent_exact h.pos h rfl le_rfl]
  exact dif_neg (Nat.ne_of_gt h.pos)

/-- The number of a float is rounded to this float, on whatever scale it is given. -/
theorem round_exact {m M : Nat} {e E : Int} (s : Sign) (hm : 0 < m) (h : Canonical M E)
    (heq : scaled m e = scaled M E) :
    UnpackedFloat.round Format.binary64 s m e = .finite s M E h.pos := by
  have htarget : Format.binary64.targetExponent (totalExponent m e) = E := by
    rw [totalExponent_congr hm h.pos heq, targetExponent_of_canonical h]
  unfold UnpackedFloat.round decreaseExponent
  simp only [htarget, Nat.shiftLeft_eq]
  refine roundWithAccuracy_exact s (by positivity) h ?_ (by omega)
  rw [scaled_mul_two_pow, ← heq]
  congr 1
  omega

/-! ### Quotients -/

/-- A quotient of two whole numbers of steps that is a float is found without a rest. -/
theorem divCore_exact {m₁ m₂ M : Nat} {e₁ e₂ E : Int} (h₁ : 0 < m₁) (h₂ : 0 < m₂)
    (h : Canonical M E) (heq : scaled m₁ e₁ = scaled M E * scaled m₂ e₂) :
    ∃ m e, divCore Format.binary64 m₁ e₁ m₂ e₂ = (m, e, .exact) ∧ scaled m e = scaled M E ∧
      e ≤ E ∧ 0 < m := by
  have hplace : (m₁.log2 : Int) + e₁ < 53 + E + (m₂.log2 + 1 + e₂) := by
    rw [← zpow_lt_zpow_iff_right₀ (one_lt_two (α := ℚ)), zpow_add₀ two_ne_zero (53 + E)]
    have hM : scaled M E < 2 ^ (53 + E) := by
      refine (scaled_lt_two_zpow M E).trans_le ?_
      rw [zpow_le_zpow_iff_right₀ one_lt_two]
      have := (Nat.log2_lt (Nat.ne_of_gt h.pos)).2 h.lt
      omega
    calc (2 : ℚ) ^ (m₁.log2 + e₁) ≤ scaled m₁ e₁ := two_zpow_le_scaled h₁ e₁
      _ = scaled M E * scaled m₂ e₂ := heq
      _ < 2 ^ (53 + E) * 2 ^ (m₂.log2 + 1 + e₂) :=
          mul_lt_mul'' hM (scaled_lt_two_zpow m₂ e₂) (scaled_pos h.pos E).le (scaled_pos h₂ e₂).le
  -- the scale on which the quotient is taken is no coarser than that of the result
  obtain ⟨T, hT⟩ : ∃ T, T = min (e₁ - e₂) (Format.binary64.targetExponent
    (totalExponent m₁ e₁ - totalExponent m₂ e₂)) := ⟨_, rfl⟩
  have hTE : T ≤ E := by
    have hlow := h.minScale_le
    rw [hT, targetExponent_eq, totalExponent, totalExponent]
    omega
  have hshift : m₁ * 2 ^ (e₁ - e₂ - T).toNat = M * 2 ^ (E - T).toNat * m₂ := by
    apply scaled_inj (e := T + e₂)
    rw [scaled_mul_two_pow, scaled_mul, scaled_mul_two_pow]
    have hleft : T + e₂ + ((e₁ - e₂ - T).toNat : Int) = e₁ := by omega
    have hright : T + ((E - T).toNat : Int) = E := by omega
    rw [hleft, hright, heq]
  refine ⟨M * 2 ^ (E - T).toNat, T, ?_, ?_, hTE, by have := h.pos; positivity⟩
  · unfold divCore
    simp only [← hT, Nat.shiftLeft_eq]
    rw [hshift, Nat.mul_div_cancel _ h₂, Nat.mul_mod_left]
    rfl
  · rw [scaled_mul_two_pow]
    congr 1
    omega

theorem div_exact {m₁ m₂ M : Nat} {e₁ e₂ E : Int} (h₁ : 0 < m₁) (h₂ : 0 < m₂)
    (h : Canonical M E) (heq : scaled m₁ e₁ = scaled M E * scaled m₂ e₂) :
    UnpackedFloat.div Format.binary64 (.finite .positive m₁ e₁ h₁) (.finite .positive m₂ e₂ h₂) =
      .finite .positive M E h.pos := by
  obtain ⟨m, e, hcore, hvalue, he, hm⟩ := divCore_exact h₁ h₂ h heq
  simp only [UnpackedFloat.div, hcore]
  exact roundWithAccuracy_exact _ hm h hvalue he

/-! ### Reading a decimal -/

theorem IsPositive.eq {x y : Float} {m : Nat} {e : Int} (hx : IsPositive x m e)
    (hy : IsPositive y m e) : x = y :=
  eq_of_toBits_eq (hx.toBits.trans hy.toBits.symm)

theorem canonical_of_lt {n : Nat} (hn : 0 < n) (hlt : n < 2 ^ 53) :
    Canonical (n * 2 ^ (52 - n.log2)) (n.log2 - 52) := by
  have hlog : n.log2 < 53 := (Nat.log2_lt (Nat.ne_of_gt hn)).2 hlt
  have h2 : 0 < 2 ^ (52 - n.log2) := by positivity
  have hlow : 2 ^ n.log2 * 2 ^ (52 - n.log2) = 2 ^ 52 := by
    rw [← Nat.pow_add]
    congr 1
    omega
  have hhigh : 2 ^ (n.log2 + 1) * 2 ^ (52 - n.log2) = 2 ^ 53 := by
    rw [← Nat.pow_add]
    congr 1
    omega
  refine ⟨Nat.mul_pos hn h2, ?_, by omega, by omega, .inl ?_⟩
  · exact hhigh ▸ Nat.mul_lt_mul_of_pos_right Nat.lt_log2_self h2
  · exact hlow ▸ Nat.mul_le_mul_right _ (Nat.log2_self_le (Nat.ne_of_gt hn))

/-- A whole number below `2 ^ 53` is a float. -/
theorem exists_isPositive_toFloat {n : Nat} (hn : 0 < n) (hlt : n < 2 ^ 53) :
    ∃ m e, IsPositive n.toUInt64.toFloat m e ∧ scaled m e = n := by
  have hlog : n.log2 < 53 := (Nat.log2_lt (Nat.ne_of_gt hn)).2 hlt
  have hc := canonical_of_lt hn hlt
  have hvalue : scaled n 0 = scaled (n * 2 ^ (52 - n.log2)) (n.log2 - 52) := by
    rw [scaled_mul_two_pow]
    congr 1
    omega
  have hmodel : n.toUInt64.toFloat = .ofModel (.pack (.finite .positive
      (n * 2 ^ (52 - n.log2)) (n.log2 - 52) hc.pos)) := by
    have hto : n.toUInt64.toNat = n := Nat.mod_eq_of_lt (by omega)
    rw [← round_exact .positive hn hc hvalue]
    show Float.ofModel (.pack (UnpackedFloat.ofNat Format.binary64 n.toUInt64.toNat)) = _
    rw [hto, UnpackedFloat.ofNat, UnpackedFloat.ofInt, UnpackedFloat.normalize,
      Int.compare_eq_gt.2 (by omega)]
    rfl
  refine ⟨_, _, hmodel ▸ isPositive_pack hc, ?_⟩
  rw [← hvalue]
  simp [scaled]

/-- A quotient that is a float is this float. -/
theorem div_eq {x y z : Float} {m₁ m₂ m : Nat} {e₁ e₂ e : Int} (hx : IsPositive x m₁ e₁)
    (hy : IsPositive y m₂ e₂) (hz : IsPositive z m e)
    (h : scaled m₁ e₁ = scaled m e * scaled m₂ e₂) : x / y = z := by
  refine IsPositive.eq ?_ hz
  obtain ⟨h₁, hx⟩ := hx
  obtain ⟨h₂, hy⟩ := hy
  have hdiv : x / y = .ofModel (.pack (.finite .positive m e hz.canonical.pos)) := by
    rw [← div_exact h₁ h₂ hz.canonical h, ← hx, ← hy]
    rfl
  exact hdiv ▸ isPositive_pack hz.canonical

/-- What the table of powers of ten holds. -/
theorem powersOfTen_spec : ∀ i : Fin 23,
    let x := Float.exactlyRepresentablePowersOfTen[i]
    let b := Binary.ofFloat x
    x.isFinite = true ∧ isSigned x = false ∧ x ≠ 0 ∧ -52 ≤ b.scale ∧
      b.steps * 2 ^ (b.scale + 52).toNat = 10 ^ i.val * 2 ^ 52 := by
  decide +kernel

/-- The powers of ten in the table are exact. -/
theorem exists_isPositive_powerOfTen {n : Nat}
    (hn : n < Float.exactlyRepresentablePowersOfTen.size) :
    ∃ m e, IsPositive Float.exactlyRepresentablePowersOfTen[n] m e ∧ scaled m e = 10 ^ n := by
  obtain ⟨hfin, hsign, h0, hscale, hsteps⟩ := powersOfTen_spec ⟨n, hn⟩
  refine ⟨_, _, isPositive_ofFloat hfin hsign h0, ?_⟩
  simp only [] at hscale hsteps
  generalize Binary.ofFloat _ = b at hscale hsteps ⊢
  have hvalue : scaled b.steps b.scale = scaled (10 ^ n * 2 ^ 52) (-52) := by
    rw [← hsteps, scaled_mul_two_pow]
    congr 1
    omega
  rw [hvalue, scaled_mul_two_pow]
  simp [scaled]

theorem digits_pos {m : Nat} {e : Int} (hc : Canonical m e) {n k : Nat}
    (h : (n : ℚ) = scaled m e * 10 ^ k) : 0 < n := by
  have : (0 : ℚ) < n := h ▸ mul_pos (scaled_pos hc.pos e) (by positivity)
  exact_mod_cast this

/-- A decimal that is not too small to be a float does not have too many places. -/
theorem places_le {m : Nat} {e : Int} (hc : Canonical m e) {n k : Nat}
    (h : (n : ℚ) = scaled m e * 10 ^ k) : (k : Int) ≤ 1074 + n.log2 := by
  have hlow : (2 : ℚ) ^ (-1074 : Int) ≤ scaled m e := by
    refine le_trans ?_ (two_zpow_le_scaled hc.pos e)
    rw [zpow_le_zpow_iff_right₀ one_lt_two]
    have := hc.minScale_le
    omega
  have hten : (2 : ℚ) ^ k ≤ 10 ^ k := pow_le_pow_left₀ two_pos.le (by norm_num) k
  have hlt : (2 : ℚ) ^ (-1074 + k : Int) < 2 ^ (n.log2 + 1 + 0 : Int) := by
    calc (2 : ℚ) ^ (-1074 + k : Int) = 2 ^ (-1074 : Int) * 2 ^ k := by
          rw [zpow_add₀ two_ne_zero, zpow_natCast]
      _ ≤ scaled m e * 10 ^ k := mul_le_mul hlow hten (by positivity) (scaled_pos hc.pos e).le
      _ = scaled n 0 := by rw [← h]; simp [scaled]
      _ < 2 ^ (n.log2 + 1 + 0 : Int) := scaled_lt_two_zpow n 0
  rw [zpow_lt_zpow_iff_right₀ one_lt_two] at hlt
  omega

/-- A product by one of a whole number, on a fine scale, is the float of the number. -/
theorem mul_exact {m : Nat} {e : Int} (hc : Canonical m e) {n : Nat} (hn : 0 < n)
    (h : (n : ℚ) = scaled m e) (hpos : 0 < n <<< 53) (hone : 0 < 1) :
    UnpackedFloat.mul Format.binary64 (.finite .positive (n <<< 53) (-53) hpos)
      (.finite .positive 1 0 hone) = .finite .positive m e hc.pos := by
  have hvalue : scaled (n * 2 ^ 53) (-53) = scaled m e := by
    rw [scaled_mul_two_pow, ← h]
    simp [scaled]
  -- on a finer scale, a whole number would have more steps than a float has
  have hscale : -53 ≤ e := by
    by_contra hlt
    have hm := eq_mul_of_scaled_eq hvalue.symm (by omega)
    have h2 : 1 ≤ 2 ^ (-53 - e).toNat := Nat.one_le_two_pow
    have hle : 2 ^ 53 ≤ m := by
      rw [hm]
      calc 2 ^ 53 ≤ n * 2 ^ 53 := Nat.le_mul_of_pos_left _ hn
        _ ≤ n * 2 ^ 53 * 2 ^ (-53 - e).toNat := Nat.le_mul_of_pos_right _ h2
    exact absurd hc.lt (Nat.not_lt_of_le hle)
  simp only [UnpackedFloat.mul, Nat.mul_one, Nat.shiftLeft_eq, Int.add_zero]
  exact roundWithAccuracy_exact .positive (by positivity) hc hvalue hscale

/-- Digits that spell the value of a float are read as this float, however many they are. -/
theorem ofScientific_exact {m : Nat} {e : Int} (hc : Canonical m e) {n k : Nat}
    (h : (n : ℚ) = scaled m e * 10 ^ k) :
    UnpackedFloat.ofScientific Format.binary64 n (Int.negOfNat k) =
      .finite .positive m e hc.pos := by
  have hn := digits_pos hc h
  have hplaces := places_le hc h
  have hneg : Int.negOfNat k = -(k : Int) := Int.negOfNat_eq
  have hbig : (2 : Int) ^ Format.binary64.exponentBits = 2048 := rfl
  unfold UnpackedFloat.ofScientific
  rw [dif_neg (Nat.ne_of_gt hn), hneg, if_neg (by omega), if_neg (by omega)]
  by_cases hk : k = 0
  · subst hk
    rw [if_pos (by simp)]
    exact mul_exact hc hn (by simpa using h) _ _
  · rw [if_neg (by omega)]
    refine div_exact hn _ hc ?_
    have hto : (- -(k : Int)).toNat = k := by omega
    rw [hto]
    simpa [scaled] using h

/-- **A decimal is read as the float that it is.** Digits whose value is that of a positive float
give this float, be they few, so that they are divided by a power of ten, or many. -/
theorem ofScientific_eq {x : Float} {m : Nat} {e : Int} (hx : IsPositive x m e) {n k : Nat}
    (h : (n : ℚ) = scaled m e * 10 ^ k) : Float.ofScientific n true k = x := by
  unfold Float.ofScientific
  by_cases hfast : n < 2 ^ 53 ∧ k ≤ 22
  · obtain ⟨m₁, e₁, hn, hn'⟩ := exists_isPositive_toFloat (digits_pos hx.canonical h) hfast.1
    obtain ⟨m₂, e₂, hten, hten'⟩ := exists_isPositive_powerOfTen (Nat.lt_succ_of_le hfast.2)
    rw [dif_pos hfast, if_pos rfl]
    refine div_eq hn hten hx ?_
    rw [hn', hten', h]
  · rw [dif_neg hfast]
    refine IsPositive.eq ?_ hx
    show IsPositive (.ofModel (.pack (UnpackedFloat.ofScientific Format.binary64 n
      (Int.negOfNat k)))) m e
    rw [ofScientific_exact hx.canonical h]
    exact isPositive_pack hx.canonical

/-! ### What is read is a number -/

theorem roundWithAccuracy_ne_notANumber (s : Sign) (m : Nat) (e : Int) (a : Accuracy) :
    roundWithAccuracy Format.binary64 s m e a ≠ .notANumber := by
  unfold roundWithAccuracy
  simp only []
  split_ifs
  · exact UnpackedFloat.noConfusion
  · exact UnpackedFloat.noConfusion

theorem isNaN_toFloat (n : UInt64) : n.toFloat.isNaN = false := by
  rw [isNaN_eq_false_iff]
  refine unpack_pack_ne_notANumber ?_
  unfold UnpackedFloat.ofUInt64 UnpackedFloat.ofNat UnpackedFloat.ofInt UnpackedFloat.normalize
  split
  · exact roundWithAccuracy_ne_notANumber _ _ _ _
  · exact UnpackedFloat.noConfusion
  · exact roundWithAccuracy_ne_notANumber _ _ _ _

/-- A quotient by a positive float is undefined only where the dividend is. -/
theorem isNaN_div {x y : Float} {m : Nat} {e : Int} (hx : x.isNaN = false)
    (hy : IsPositive y m e) : (x / y).isNaN = false := by
  rw [isNaN_eq_false_iff] at hx ⊢
  obtain ⟨hm, hy⟩ := hy
  refine unpack_pack_ne_notANumber ?_
  rw [hy]
  cases hu : x.toModel.unpack with
  | notANumber => exact absurd hu hx
  | infinity s => exact UnpackedFloat.noConfusion
  | zero s => exact UnpackedFloat.noConfusion
  | finite s m' e' hm' => exact roundWithAccuracy_ne_notANumber _ _ _ _

/-- Digits with some places never spell an undefined value. -/
theorem isNaN_ofScientific (n k : Nat) : (Float.ofScientific n true k).isNaN = false := by
  unfold Float.ofScientific
  by_cases hfast : n < 2 ^ 53 ∧ k ≤ 22
  · obtain ⟨m, e, hten, -⟩ := exists_isPositive_powerOfTen (Nat.lt_succ_of_le hfast.2)
    rw [dif_pos hfast, if_pos rfl]
    exact isNaN_div (isNaN_toFloat _) hten
  · rw [dif_neg hfast, isNaN_eq_false_iff]
    show (Float.Model.pack (UnpackedFloat.ofScientific Format.binary64 n
      (Int.negOfNat k))).unpack ≠ _
    refine unpack_pack_ne_notANumber ?_
    unfold UnpackedFloat.ofScientific
    split_ifs
    · exact UnpackedFloat.noConfusion
    · exact UnpackedFloat.noConfusion
    · exact UnpackedFloat.noConfusion
    · exact roundWithAccuracy_ne_notANumber _ _ _ _
    · exact roundWithAccuracy_ne_notANumber _ _ _ _

end SheetTemplate.Number
