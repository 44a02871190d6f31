import SheetTemplate.Number.Binary
import Mathlib

/-!
# Floats and their bits

A finite float other than zero is `m · 2 ^ e` up to its sign, where `m` and `e` are as `Canonical`
says, and its bits are the whole number `bitsOf s m e` (`unpack_eq_finite_iff`). So a packed float
is unpacked again (`unpack_pack_finite`), and `Binary.ofFloat` reads `m` and `e` off the bits
(`IsPositive.ofFloat_eq`). Only what is undefined is packed as an undefined value
(`unpack_pack_ne_notANumber`).
-/

namespace SheetTemplate.Number

open Float.Model Float.Model.UnpackedFloat

/-- The bits of a float. -/
abbrev Bits := BitVec Format.binary64.numBits

/-- The numbers `m` and `e` for which `m · 2 ^ e` is a positive float. -/
structure Canonical (m : Nat) (e : Int) : Prop where
  pos : 0 < m
  lt : m < 2 ^ 53
  minScale_le : -1074 ≤ e
  le_maxScale : e ≤ 971
  full : 2 ^ 52 ≤ m ∨ e = -1074

/-- The bits that a sign adds. -/
def signBits : Sign → Nat
  | .negative => 2 ^ 63
  | .positive => 0

/-- The bits of a float from its sign, its steps and its scale. -/
def bitsOf (s : Sign) (m : Nat) (e : Int) : Nat := signBits s + (e + 1074).toNat * 2 ^ 52 + m

theorem signBits_injective : Function.Injective signBits := by
  intro s t h
  cases s <;> cases t <;> simp [signBits] at h ⊢

theorem toNat_lt (b : Bits) : b.toNat < 2 ^ 64 := b.isLt

/-! ### The fields of some bits -/

theorem toNat_unpackMantissa (b : Bits) : (unpackMantissa b).toNat = b.toNat % 2 ^ 52 := by
  simp [unpackMantissa, BitVec.extractLsb]

theorem toNat_unpackExponent (b : Bits) :
    (unpackExponent b).toNat = b.toNat / 2 ^ 52 % 2 ^ 11 := by
  simp [unpackExponent, BitVec.extractLsb, Nat.shiftRight_eq_div_pow]

theorem toNat_unpackSign (b : Bits) : (unpackSign b).toNat = b.toNat / 2 ^ 63 := by
  have := toNat_lt b
  simp [unpackSign, BitVec.extractLsb, Nat.shiftRight_eq_div_pow]
  omega

theorem signBits_ofBitVec (b : Bits) :
    signBits (Sign.ofBitVec (unpackSign b)) = b.toNat / 2 ^ 63 * 2 ^ 63 := by
  have hlt := toNat_lt b
  have hsign := toNat_unpackSign b
  unfold Sign.ofBitVec
  split_ifs with h
  · rw [h] at hsign
    rw [← hsign]
    rfl
  · have hne : (unpackSign b).toNat ≠ 0 := fun h0 => h (BitVec.eq_of_toNat_eq h0)
    show 2 ^ 63 = _
    omega

theorem toNat_packComponents (s : Sign) (e : BitVec 11) (m : BitVec 52) :
    (packComponents Format.binary64 s e m).toNat = signBits s + e.toNat * 2 ^ 52 + m.toNat := by
  unfold packComponents
  rw [BitVec.toNat_append, BitVec.toNat_append, ← Nat.shiftLeft_add_eq_or_of_lt m.isLt,
    ← Nat.shiftLeft_add_eq_or_of_lt e.isLt, Nat.shiftLeft_eq, Nat.shiftLeft_eq]
  cases s
  · show (1 * 2 ^ 11 + e.toNat) * 2 ^ 52 + m.toNat = 2 ^ 63 + e.toNat * 2 ^ 52 + m.toNat
    omega
  · show (0 * 2 ^ 11 + e.toNat) * 2 ^ 52 + m.toNat = 0 + e.toNat * 2 ^ 52 + m.toNat
    omega

theorem toNat_one_append (m : BitVec 52) : (1#1 ++ m).toNat = 2 ^ 52 + m.toNat := by
  rw [BitVec.toNat_append, ← Nat.shiftLeft_add_eq_or_of_lt m.isLt]
  rfl

/-! ### Unpacking -/

/-- What some bits stand for, by the numbers in their fields. -/
theorem unpack_eq (b : Bits) : UnpackedFloat.unpack Format.binary64 b =
    if b.toNat / 2 ^ 52 % 2 ^ 11 = 2047 then
      if b.toNat % 2 ^ 52 = 0 then .infinity (Sign.ofBitVec (unpackSign b)) else .notANumber
    else if b.toNat / 2 ^ 52 % 2 ^ 11 = 0 then
      if h : b.toNat % 2 ^ 52 = 0 then .zero (Sign.ofBitVec (unpackSign b))
      else .finite (Sign.ofBitVec (unpackSign b)) (b.toNat % 2 ^ 52) (-1074) (Nat.pos_of_ne_zero h)
    else .finite (Sign.ofBitVec (unpackSign b)) (2 ^ 52 + b.toNat % 2 ^ 52)
      ((b.toNat / 2 ^ 52 % 2 ^ 11 : Nat) - 1075) (by omega) := by
  have hm := toNat_unpackMantissa b
  have he := toNat_unpackExponent b
  unfold UnpackedFloat.unpack
  simp only [← BitVec.toNat_inj, hm, he, Format.exponentBias, toNat_one_append,
    show (0#11).toNat = 0 from rfl, show (0#52).toNat = 0 from rfl]
  refine if_congr Iff.rfl rfl ?_
  by_cases hexp : b.toNat / 2 ^ 52 % 2 ^ 11 = 0
  · rw [if_pos hexp, if_pos hexp]
    by_cases hfrac : b.toNat % 2 ^ 52 = 0
    · rw [dif_pos hfrac, dif_pos hfrac]
    · rw [dif_neg hfrac, dif_neg hfrac]
      congr 1
      rw [hexp]
      rfl
  · rw [if_neg hexp, if_neg hexp]
    rfl

/-- **The bits of a positive or negative float** are given by its sign, its steps and its scale. -/
theorem unpack_eq_finite_iff {b : Bits} {s : Sign} {m : Nat} {e : Int} (h : 0 < m) :
    UnpackedFloat.unpack Format.binary64 b = .finite s m e h ↔
      Canonical m e ∧ b.toNat = bitsOf s m e := by
  have hlt := toNat_lt b
  have hsign := signBits_ofBitVec b
  rw [unpack_eq]
  constructor
  · intro hu
    split_ifs at hu with h1 h2 h3 h4
    · obtain ⟨rfl, rfl, rfl⟩ : _ ∧ _ ∧ _ := UnpackedFloat.finite.inj hu
      refine ⟨⟨by omega, by omega, by omega, by omega, .inr rfl⟩, ?_⟩
      rw [bitsOf, hsign]
      omega
    · obtain ⟨rfl, rfl, rfl⟩ : _ ∧ _ ∧ _ := UnpackedFloat.finite.inj hu
      refine ⟨⟨by omega, by omega, by omega, by omega, .inl (by omega)⟩, ?_⟩
      rw [bitsOf, hsign]
      omega
  · rintro ⟨⟨-, hm, hlow, hhigh, hfull⟩, hb⟩
    have hs : Sign.ofBitVec (unpackSign b) = s := by
      apply signBits_injective
      rw [hsign]
      unfold bitsOf at hb
      cases s <;> simp only [signBits] at hb ⊢ <;> omega
    have hbits : b.toNat % 2 ^ 63 = (e + 1074).toNat * 2 ^ 52 + m := by
      unfold bitsOf at hb
      cases s <;> simp only [signBits] at hb <;> omega
    rw [hs]
    -- the leading digit of a full number of steps is not among the bits
    by_cases hnormal : 2 ^ 52 ≤ m
    · rw [if_neg (by omega), if_neg (by omega)]
      congr 1 <;> omega
    · rw [if_neg (by omega), if_pos (by omega), dif_neg (by omega)]
      congr 1 <;> omega

theorem unpack_eq_zero_iff {b : Bits} {s : Sign} :
    UnpackedFloat.unpack Format.binary64 b = .zero s ↔ b.toNat = signBits s := by
  have hlt := toNat_lt b
  have hsign := signBits_ofBitVec b
  rw [unpack_eq]
  constructor
  · intro hu
    split_ifs at hu with h1 h2 h3
    obtain rfl := UnpackedFloat.zero.inj hu
    omega
  · intro hb
    have hs : Sign.ofBitVec (unpackSign b) = s := by
      apply signBits_injective
      rw [hsign]
      cases s <;> simp only [signBits] at hb ⊢ <;> omega
    have hrest : b.toNat % 2 ^ 63 = 0 := by cases s <;> simp only [signBits] at hb <;> omega
    rw [hs, if_neg (by omega), if_pos (by omega), dif_pos (by omega)]

/-! ### Packing -/

theorem log2_of_canonical {m : Nat} {e : Int} (h : Canonical m e) (hfull : 2 ^ 52 ≤ m) :
    m.log2 = 52 :=
  (Nat.log2_eq_iff (Nat.ne_of_gt h.pos)).2 ⟨hfull, h.lt⟩

theorem toNat_pack_finite {m : Nat} {e : Int} (s : Sign) (h : Canonical m e) :
    (UnpackedFloat.pack Format.binary64 (.finite s m e h.pos)).toNat = bitsOf s m e := by
  obtain ⟨hpos, hlt, hlow, hhigh, hfull⟩ := h
  have hbias : (Format.binary64.exponentBias : Int) = 1023 := rfl
  unfold UnpackedFloat.pack bitsOf
  simp only [hbias, Format.mantissaBits]
  rw [if_neg (by omega)]
  by_cases hnormal : 2 ^ 52 ≤ m
  · rw [log2_of_canonical ⟨hpos, hlt, hlow, hhigh, hfull⟩ hnormal, if_pos rfl,
      toNat_packComponents, BitVec.toNat_ofNat, BitVec.toNat_ofNat]
    omega
  · have hlog : m.log2 < 52 := (Nat.log2_lt (Nat.ne_of_gt hpos)).2 (by omega)
    rw [if_neg (by omega), toNat_packComponents, BitVec.toNat_ofNat, BitVec.toNat_ofNat]
    omega

theorem toNat_pack_zero (s : Sign) :
    (UnpackedFloat.pack Format.binary64 (.zero s)).toNat = signBits s := by
  cases s <;> rfl

theorem unpack_pack_finite {m : Nat} {e : Int} (s : Sign) (h : Canonical m e) :
    (Float.Model.pack (.finite s m e h.pos)).unpack = .finite s m e h.pos :=
  (unpack_eq_finite_iff h.pos).2 ⟨h, toNat_pack_finite s h⟩

/-- Bits are undefined only by their fields. -/
theorem unpack_packComponents_ne_notANumber {s : Sign} {e : BitVec Format.binary64.exponentBits}
    {m : BitVec Format.binary64.mantissaBitsWithoutImplicit} (h : e ≠ -1#_ ∨ m = 0#_) :
    UnpackedFloat.unpack Format.binary64 (packComponents Format.binary64 s e m) ≠ .notANumber := by
  unfold UnpackedFloat.unpack
  simp only [unpackExponent_packComponents, unpackMantissa_packComponents]
  split_ifs with h1 h2 h3 h4
  · exact UnpackedFloat.noConfusion
  · exact absurd h (by simp [h1, h2])
  · exact UnpackedFloat.noConfusion
  · exact UnpackedFloat.noConfusion
  · exact UnpackedFloat.noConfusion

/-- Only what is undefined is packed as an undefined value. -/
theorem unpack_pack_ne_notANumber {u : UnpackedFloat} (h : u ≠ .notANumber) :
    (Float.Model.pack u).unpack ≠ .notANumber := by
  show UnpackedFloat.unpack Format.binary64 (UnpackedFloat.pack Format.binary64 u) ≠ _
  unfold UnpackedFloat.pack
  cases u with
  | notANumber => exact absurd rfl h
  | infinity s => exact unpack_packComponents_ne_notANumber (.inr rfl)
  | zero s => exact unpack_packComponents_ne_notANumber (.inr rfl)
  | finite s m e hm =>
    simp only []
    split_ifs with hbig hnormal
    · exact unpack_packComponents_ne_notANumber (.inr rfl)
    · refine unpack_packComponents_ne_notANumber (.inl fun heq => ?_)
      have hmax : (-1#(Format.binary64.exponentBits)).toNat = 2047 := rfl
      have hbits : 2 ^ Format.binary64.exponentBits = 2048 := rfl
      have hval := congrArg BitVec.toNat heq
      rw [hmax, BitVec.toNat_ofNat, hbits] at hval
      rw [hbits] at hbig
      omega
    · exact unpack_packComponents_ne_notANumber (.inl (by decide))

/-! ### The bits of a float -/

theorem eq_of_toBits_eq {x y : Float} (h : x.toBits.toNat = y.toBits.toNat) : x = y := by
  obtain ⟨⟨a, ha⟩⟩ := x
  obtain ⟨⟨b, hb⟩⟩ := y
  obtain rfl : a = b := UInt64.toNat_inj.1 h
  rfl

/-- A finite float is a zero, or positive or negative. -/
theorem unpack_of_isFinite {x : Float} (h : x.isFinite = true) :
    (∃ s, x.toModel.unpack = .zero s) ∨
      ∃ s m e, ∃ hm : 0 < m, x.toModel.unpack = .finite s m e hm := by
  change x.toModel.unpack.isFinite = true at h
  cases hu : x.toModel.unpack with
  | zero s => exact .inl ⟨s, rfl⟩
  | finite s m e hm => exact .inr ⟨s, m, e, hm, rfl⟩
  | _ => rw [hu] at h; cases h

theorem isNaN_of_isFinite {x : Float} (h : x.isFinite = true) : x.isNaN = false := by
  change x.toModel.unpack.isNaN = false
  rcases unpack_of_isFinite h with ⟨s, hu⟩ | ⟨s, m, e, hm, hu⟩ <;> rw [hu] <;> rfl

theorem isInf_of_isFinite {x : Float} (h : x.isFinite = true) : x.isInf = false := by
  change x.toModel.unpack.isInf = false
  rcases unpack_of_isFinite h with ⟨s, hu⟩ | ⟨s, m, e, hm, hu⟩ <;> rw [hu] <;> rfl

theorem isNaN_eq_false_iff {x : Float} :
    x.isNaN = false ↔ x.toModel.unpack ≠ .notANumber := by
  change x.toModel.unpack.isNaN = false ↔ _
  cases x.toModel.unpack <;> simp [UnpackedFloat.isNaN]

theorem isFinite_of_not_isNaN_of_not_isInf {x : Float} (h : x.isNaN = false)
    (h' : x.isInf = false) : x.isFinite = true := by
  change x.toModel.unpack.isNaN = false at h
  change x.toModel.unpack.isInf = false at h'
  change x.toModel.unpack.isFinite = true
  cases hu : x.toModel.unpack with
  | notANumber => rw [hu] at h; exact Bool.noConfusion h
  | infinity s => rw [hu] at h'; exact Bool.noConfusion h'
  | _ => rfl

theorem isNaN_neg {x : Float} (h : x.isNaN = false) : (-x).isNaN = false := by
  rw [isNaN_eq_false_iff] at h ⊢
  refine unpack_pack_ne_notANumber ?_
  cases hu : x.toModel.unpack with
  | notANumber => exact absurd hu h
  | _ => exact fun hneg => by cases hneg

theorem toBits_of_unpack_zero {x : Float} {s : Sign} (h : x.toModel.unpack = .zero s) :
    x.toBits.toNat = signBits s :=
  unpack_eq_zero_iff.1 h

theorem toBits_of_unpack_finite {x : Float} {s : Sign} {m : Nat} {e : Int} {hm : 0 < m}
    (h : x.toModel.unpack = .finite s m e hm) :
    Canonical m e ∧ x.toBits.toNat = bitsOf s m e :=
  (unpack_eq_finite_iff hm).1 h

/-- The bits without the sign. -/
theorem bitsOf_positive_lt {m : Nat} {e : Int} (h : Canonical m e) :
    bitsOf .positive m e < 2 ^ 63 := by
  obtain ⟨hpos, hlt, hlow, hhigh, hfull⟩ := h
  simp only [bitsOf, signBits]
  omega

theorem toBits_abs {x : Float} (h : x.isFinite = true) :
    x.abs.toBits.toNat = x.toBits.toNat % 2 ^ 63 := by
  rcases unpack_of_isFinite h with ⟨s, hu⟩ | ⟨s, m, e, hm, hu⟩
  · have habs : x.abs.toBits.toNat = signBits .positive := by
      show (UnpackedFloat.pack Format.binary64 x.toModel.unpack.abs).toNat = _
      rw [hu]
      exact toNat_pack_zero _
    rw [habs, toBits_of_unpack_zero hu]
    cases s <;> rfl
  · obtain ⟨hc, hbits⟩ := toBits_of_unpack_finite hu
    have habs : x.abs.toBits.toNat = bitsOf .positive m e := by
      show (UnpackedFloat.pack Format.binary64 x.toModel.unpack.abs).toNat = _
      rw [hu]
      exact toNat_pack_finite _ hc
    have hlt := bitsOf_positive_lt hc
    rw [habs, hbits]
    cases s <;> simp only [bitsOf, signBits] at hlt ⊢ <;> omega

theorem toBits_neg {x : Float} (h : x.isFinite = true) :
    (-x).toBits.toNat = (x.toBits.toNat + 2 ^ 63) % 2 ^ 64 := by
  rcases unpack_of_isFinite h with ⟨s, hu⟩ | ⟨s, m, e, hm, hu⟩
  · have hneg : (-x).toBits.toNat = signBits (-s) := by
      show (UnpackedFloat.pack Format.binary64 x.toModel.unpack.neg).toNat = _
      rw [hu]
      exact toNat_pack_zero _
    rw [hneg, toBits_of_unpack_zero hu]
    cases s <;> rfl
  · obtain ⟨hc, hbits⟩ := toBits_of_unpack_finite hu
    have hneg : (-x).toBits.toNat = bitsOf (-s) m e := by
      show (UnpackedFloat.pack Format.binary64 x.toModel.unpack.neg).toNat = _
      rw [hu]
      exact toNat_pack_finite _ hc
    have hlt := bitsOf_positive_lt hc
    rw [hneg, hbits]
    have hsign : signBits (-s) = (signBits s + 2 ^ 63) % 2 ^ 64 := by cases s <;> rfl
    have hs : signBits s = 0 ∨ signBits s = 2 ^ 63 := by cases s <;> simp [signBits]
    simp only [bitsOf, hsign] at hlt ⊢
    simp only [signBits] at hlt
    omega

theorem isFinite_iff {x : Float} :
    x.isFinite = true ↔ x.toBits.toNat / 2 ^ 52 % 2 ^ 11 ≠ 2047 := by
  show (UnpackedFloat.unpack Format.binary64 x.toModel.toBits.toBitVec).isFinite = true ↔ _
  rw [unpack_eq]
  change _ ↔ x.toModel.toBits.toBitVec.toNat / 2 ^ 52 % 2 ^ 11 ≠ 2047
  split_ifs with h1 h2 h3 h4 <;> simp_all [UnpackedFloat.isFinite]

theorem isSigned_eq (x : Float) : isSigned x = decide (2 ^ 63 ≤ x.toBits.toNat) := rfl

/-! ### Signs -/

variable {x : Float}

theorem isFinite_neg (h : x.isFinite = true) : (-x).isFinite = true := by
  have hbits := toBits_neg h
  rw [isFinite_iff] at h ⊢
  omega

theorem isFinite_abs (h : x.isFinite = true) : x.abs.isFinite = true := by
  have hbits := toBits_abs h
  rw [isFinite_iff] at h ⊢
  omega

theorem isSigned_abs (h : x.isFinite = true) : isSigned x.abs = false := by
  have hbits := toBits_abs h
  rw [isSigned_eq, decide_eq_false_iff_not]
  omega

theorem isSigned_neg (h : x.isFinite = true) : isSigned (-x) = !isSigned x := by
  have hbits := toBits_neg h
  have hlt := x.toBits.toNat_lt
  by_cases hs : 2 ^ 63 ≤ x.toBits.toNat
  · rw [isSigned_eq, isSigned_eq, decide_eq_true hs, decide_eq_false (by omega)]
    rfl
  · rw [isSigned_eq, isSigned_eq, decide_eq_false hs, decide_eq_true (by omega)]
    rfl

theorem abs_of_not_isSigned (h : x.isFinite = true) (hs : isSigned x = false) : x.abs = x := by
  rw [isSigned_eq, decide_eq_false_iff_not] at hs
  apply eq_of_toBits_eq
  rw [toBits_abs h]
  omega

theorem neg_abs_of_isSigned (h : x.isFinite = true) (hs : isSigned x = true) : -x.abs = x := by
  have hlt := x.toBits.toNat_lt
  rw [isSigned_eq, decide_eq_true_eq] at hs
  apply eq_of_toBits_eq
  rw [toBits_neg (isFinite_abs h), toBits_abs h]
  omega

theorem abs_neg (h : x.isFinite = true) : (-x).abs = x.abs := by
  apply eq_of_toBits_eq
  rw [toBits_abs (isFinite_neg h), toBits_abs h, toBits_neg h]
  omega

/-! ### Positive floats -/

/-- `x` is the positive float `m · 2 ^ e`. -/
def IsPositive (x : Float) (m : Nat) (e : Int) : Prop :=
  ∃ h, x.toModel.unpack = .finite .positive m e h

theorem IsPositive.canonical {m : Nat} {e : Int} (h : IsPositive x m e) : Canonical m e :=
  (toBits_of_unpack_finite h.2).1

theorem IsPositive.toBits {m : Nat} {e : Int} (h : IsPositive x m e) :
    x.toBits.toNat = bitsOf .positive m e :=
  (toBits_of_unpack_finite h.2).2

theorem isPositive_pack {m : Nat} {e : Int} (h : Canonical m e) :
    IsPositive (.ofModel (.pack (.finite .positive m e h.pos))) m e :=
  ⟨h.pos, unpack_pack_finite .positive h⟩

theorem IsPositive.ofFloat_eq {m : Nat} {e : Int} (h : IsPositive x m e) :
    Binary.ofFloat x = ⟨m, e⟩ := by
  have hbits := h.toBits
  obtain ⟨hpos, hlt, hlow, hhigh, hfull⟩ := h.canonical
  simp only [bitsOf, signBits] at hbits
  unfold Binary.ofFloat
  simp only [Nat.pow_eq]
  by_cases hnormal : 2 ^ 52 ≤ m
  · rw [if_neg (by omega), Binary.mk.injEq]
    omega
  · rw [if_pos (by omega), Binary.mk.injEq]
    omega

/-- A finite float without sign is positive, with the steps and the scale that are read off it. -/
theorem isPositive_ofFloat (h : x.isFinite = true) (hs : isSigned x = false) (h0 : x ≠ 0) :
    IsPositive x (Binary.ofFloat x).steps (Binary.ofFloat x).scale := by
  rw [isSigned_eq, decide_eq_false_iff_not] at hs
  rcases unpack_of_isFinite h with ⟨s, hu⟩ | ⟨s, m, e, hm, hu⟩
  · have hbits := toBits_of_unpack_zero hu
    have hzero : (0 : Float).toBits.toNat = 0 := by decide
    refine absurd (eq_of_toBits_eq ?_) h0
    rw [hzero, hbits]
    cases s with
    | positive => rfl
    | negative => exact absurd (Nat.le_of_eq hbits.symm) hs
  · have hbits := (toBits_of_unpack_finite hu).2
    cases s with
    | positive =>
      have hx : IsPositive x m e := ⟨hm, hu⟩
      rw [hx.ofFloat_eq]
      exact hx
    | negative =>
      simp only [bitsOf, signBits] at hbits
      omega

end SheetTemplate.Number
