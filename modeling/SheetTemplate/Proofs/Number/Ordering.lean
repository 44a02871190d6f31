import SheetTemplate.Number.Order
import SheetTemplate.Proofs.Number.Signs

/-!
# The order of floats

Floats that are not undefined stand on a line, on which both zeros have one place (`linePlace`), and
`<` goes by these places (`lt_iff_linePlace_lt`). The whole number `rank` goes by them too, but
tells the zeros apart, so a float that ranks no higher than another is not above it
(`not_lt_of_rank_le`), floats of one rank are equal (`rank_injective`), and what is sorted by rank
depends on the numbers only and not on their order (`sort_eq_of_perm`).
-/

namespace SheetTemplate.Number

open Float.Model Float.Model.UnpackedFloat

/-! ### Places on a line -/

/-- The place of a positive float, which is the number of its bits. -/
def placeOfSteps (m : Nat) (e : Int) : Nat := (e + 1074).toNat * 2 ^ 52 + m

/-- The place of the infinite value without sign. -/
def infinitePlace : Nat := 2047 * 2 ^ 52

/-- The place of a value on a line, where both zeros have one place. -/
def placeOnLine : UnpackedFloat → Int
  | .infinity s => s.apply infinitePlace
  | .zero _ | .notANumber => 0
  | .finite s m e _ => s.apply (placeOfSteps m e)

/-- The place of a float on a line. -/
def linePlace (x : Float) : Int := placeOnLine x.toModel.unpack

/-- A value that some bits stand for, and that is not undefined. -/
def IsUnpacked : UnpackedFloat → Prop
  | .finite _ m e _ => Canonical m e
  | .notANumber => False
  | _ => True

theorem isUnpacked_unpack {x : Float} (h : x.isNaN = false) : IsUnpacked x.toModel.unpack := by
  cases hu : x.toModel.unpack with
  | notANumber => exact isNaN_eq_false_iff.1 h hu
  | finite s m e hm => exact (toBits_of_unpack_finite hu).1
  | _ => trivial

theorem placeOfSteps_bounds {m : Nat} {e : Int} (h : Canonical m e) :
    0 < placeOfSteps m e ∧ placeOfSteps m e < infinitePlace := by
  obtain ⟨hpos, hlt, hlow, hhigh, -⟩ := h
  unfold placeOfSteps infinitePlace
  omega

theorem placeOfSteps_lt {m₁ m₂ : Nat} {e₁ e₂ : Int} (h₁ : Canonical m₁ e₁) (h₂ : Canonical m₂ e₂)
    (he : e₁ < e₂) : placeOfSteps m₁ e₁ < placeOfSteps m₂ e₂ := by
  obtain ⟨-, hlt₁, hlow₁, -, -⟩ := h₁
  obtain ⟨-, -, -, -, hfull₂⟩ := h₂
  unfold placeOfSteps
  omega

/-! ### Comparison -/

theorem compare_apply (s : Sign) (a b : Nat) : compare (s.apply a) (s.apply b) =
    match s with
    | .positive => compare a b
    | .negative => (compare a b).swap := by
  cases s with
  | positive =>
    show compare (a : Int) b = compare a b
    rcases lt_trichotomy a b with h | rfl | h
    · rw [Nat.compare_eq_lt.2 h, Int.compare_eq_lt.2 (by omega)]
    · rw [Std.compare_self, Std.compare_self]
    · rw [Nat.compare_eq_gt.2 h, Int.compare_eq_gt.2 (by omega)]
  | negative =>
    show compare (-(a : Int)) (-b) = (compare a b).swap
    rcases lt_trichotomy a b with h | rfl | h
    · rw [Nat.compare_eq_lt.2 h, Int.compare_eq_gt.2 (by omega), Ordering.swap]
    · rw [Std.compare_self, Std.compare_self, Ordering.swap]
    · rw [Nat.compare_eq_gt.2 h, Int.compare_eq_lt.2 (by omega), Ordering.swap]

/-- Positive floats are ordered by their scales, and on one scale by their steps. -/
theorem compare_placeOfSteps {m₁ m₂ : Nat} {e₁ e₂ : Int} (h₁ : Canonical m₁ e₁)
    (h₂ : Canonical m₂ e₂) : (compare e₁ e₂).then (compare m₁ m₂) =
      compare (placeOfSteps m₁ e₁) (placeOfSteps m₂ e₂) := by
  rcases lt_trichotomy e₁ e₂ with he | rfl | he
  · rw [Int.compare_eq_lt.2 he, Nat.compare_eq_lt.2 (placeOfSteps_lt h₁ h₂ he)]
    rfl
  · rw [Std.compare_self]
    unfold placeOfSteps
    rcases lt_trichotomy m₁ m₂ with hm | rfl | hm
    · rw [Nat.compare_eq_lt.2 hm, Nat.compare_eq_lt.2 (by omega)]
      rfl
    · rw [Std.compare_self, Std.compare_self]
      rfl
    · rw [Nat.compare_eq_gt.2 hm, Nat.compare_eq_gt.2 (by omega)]
      rfl
  · rw [Int.compare_eq_gt.2 he, Nat.compare_eq_gt.2 (placeOfSteps_lt h₂ h₁ he)]
    rfl

theorem compare_finite {s₁ s₂ : Sign} {m₁ m₂ : Nat} {e₁ e₂ : Int} (h₁ : Canonical m₁ e₁)
    (h₂ : Canonical m₂ e₂) :
    UnpackedFloat.compare (.finite s₁ m₁ e₁ h₁.pos) (.finite s₂ m₂ e₂ h₂.pos) =
      some (compare (s₁.apply (placeOfSteps m₁ e₁)) (s₂.apply (placeOfSteps m₂ e₂))) := by
  have hpos₁ := (placeOfSteps_bounds h₁).1
  have hpos₂ := (placeOfSteps_bounds h₂).1
  cases s₁ <;> cases s₂
  · rw [compare_apply, ← compare_placeOfSteps h₁ h₂]
    rfl
  · rw [Int.compare_eq_lt.2 (by simp only [Sign.apply]; omega)]
    rfl
  · rw [Int.compare_eq_gt.2 (by simp only [Sign.apply]; omega)]
    rfl
  · rw [compare_apply, ← compare_placeOfSteps h₁ h₂]
    rfl

/-- What is not infinite stands between the infinite values. -/
theorem place_bounds {u : UnpackedFloat} (hu : IsUnpacked u) (hfin : ∀ s, u ≠ .infinity s) :
    -(infinitePlace : Int) < placeOnLine u ∧ placeOnLine u < infinitePlace := by
  cases u with
  | notANumber => exact hu.elim
  | infinity s => exact absurd rfl (hfin s)
  | zero s =>
    show -(infinitePlace : Int) < 0 ∧ (0 : Int) < infinitePlace
    exact ⟨by decide, by decide⟩
  | finite s m e hm =>
    have hlt := (placeOfSteps_bounds hu).2
    cases s <;> simp only [placeOnLine, Sign.apply] <;> omega

theorem compare_infinity_left {v : UnpackedFloat} (s : Sign) (hv : IsUnpacked v)
    (hfin : ∀ s', v ≠ .infinity s') : UnpackedFloat.compare (.infinity s) v =
      some (compare (s.apply infinitePlace) (placeOnLine v)) := by
  obtain ⟨hlow, hhigh⟩ := place_bounds hv hfin
  have hplace : compare (s.apply infinitePlace) (placeOnLine v) =
      match s with
      | .positive => .gt
      | .negative => .lt := by
    cases s with
    | positive => exact Int.compare_eq_gt.2 hhigh
    | negative => exact Int.compare_eq_lt.2 hlow
  rw [hplace]
  cases v with
  | notANumber => exact hv.elim
  | infinity s' => exact absurd rfl (hfin s')
  | _ => cases s <;> rfl

theorem compare_zero_finite {m : Nat} {e : Int} (s s' : Sign) (h : Canonical m e) :
    UnpackedFloat.compare (.zero s) (.finite s' m e h.pos) =
      some (compare 0 (s'.apply (placeOfSteps m e))) := by
  have hpos := (placeOfSteps_bounds h).1
  cases s' with
  | positive =>
    rw [Sign.apply, Int.compare_eq_lt.2 (by omega)]
    rfl
  | negative =>
    rw [Sign.apply, Int.compare_eq_gt.2 (by omega)]
    rfl

/-- A comparison from the other side is swapped. -/
theorem compare_swap (u v : UnpackedFloat) :
    (UnpackedFloat.compare u v).map Ordering.swap = UnpackedFloat.compare v u := by
  cases u with
  | finite s₁ m₁ e₁ h₁ =>
    cases v with
    | finite s₂ m₂ e₂ h₂ =>
      have hsteps : ((compare e₁ e₂).then (compare m₁ m₂)).swap =
          (compare e₂ e₁).then (compare m₂ m₁) := by
        rw [Ordering.swap_then, Int.compare_swap, Nat.compare_swap]
      cases s₁ <;> cases s₂
      · exact congrArg (fun o => some o.swap) hsteps
      · rfl
      · rfl
      · exact congrArg some hsteps
    | notANumber => rfl
    | _ s₂ => cases s₁ <;> cases s₂ <;> rfl
  | notANumber => cases v <;> rfl
  | _ s₁ =>
    cases v with
    | notANumber => rfl
    | _ s₂ => cases s₁ <;> cases s₂ <;> rfl

theorem compare_eq_some_symm {u v : UnpackedFloat}
    (h : UnpackedFloat.compare u v = some (compare (placeOnLine u) (placeOnLine v))) :
    UnpackedFloat.compare v u = some (compare (placeOnLine v) (placeOnLine u)) := by
  rw [← compare_swap, h, Option.map_some, Int.compare_swap]

/-- **Values are compared by their places.** -/
theorem compare_eq_some {u v : UnpackedFloat} (hu : IsUnpacked u) (hv : IsUnpacked v) :
    UnpackedFloat.compare u v = some (compare (placeOnLine u) (placeOnLine v)) := by
  cases u with
  | notANumber => exact hu.elim
  | infinity s =>
    cases v with
    | infinity s' => cases s <;> cases s' <;> rfl
    | _ => exact compare_infinity_left s hv nofun
  | zero s =>
    cases v with
    | notANumber => exact hv.elim
    | infinity s' => exact compare_eq_some_symm (compare_infinity_left s' hu nofun)
    | zero s' => rfl
    | finite s' m e hm => exact compare_zero_finite s s' hv
  | finite s m e hm =>
    cases v with
    | notANumber => exact hv.elim
    | infinity s' => exact compare_eq_some_symm (compare_infinity_left s' hu nofun)
    | zero s' => exact compare_eq_some_symm (compare_zero_finite s' s hu)
    | finite s' m' e' hm' => exact compare_finite hu hv

theorem lt_iff_unpack {x y : Float} :
    x < y ↔ UnpackedFloat.compare x.toModel.unpack y.toModel.unpack = some .lt := by
  show decide (x.toModel < y.toModel) = true ↔ _
  rw [decide_eq_true_iff]
  exact beq_iff_eq

/-- **Floats are ordered by their places.** -/
theorem lt_iff_linePlace_lt {x y : Float} (hx : x.isNaN = false) (hy : y.isNaN = false) :
    x < y ↔ linePlace x < linePlace y := by
  rw [lt_iff_unpack, compare_eq_some (isUnpacked_unpack hx) (isUnpacked_unpack hy),
    Option.some_inj, Int.compare_eq_lt]
  rfl

/-- An undefined value is in no order. -/
theorem isNaN_of_lt {x y : Float} (h : x < y) : x.isNaN = false ∧ y.isNaN = false := by
  rw [lt_iff_unpack] at h
  rw [isNaN_eq_false_iff, isNaN_eq_false_iff]
  constructor
  · intro hx
    rw [hx] at h
    cases h
  · intro hy
    rw [hy] at h
    cases hx : x.toModel.unpack <;> rw [hx] at h <;> cases h

protected theorem lt_trans {x y z : Float} (hxy : x < y) (hyz : y < z) : x < z := by
  obtain ⟨hx, hy⟩ := isNaN_of_lt hxy
  obtain ⟨-, hz⟩ := isNaN_of_lt hyz
  rw [lt_iff_linePlace_lt hx hy] at hxy
  rw [lt_iff_linePlace_lt hy hz] at hyz
  exact (lt_iff_linePlace_lt hx hz).2 (hxy.trans hyz)

protected theorem lt_irrefl (x : Float) : ¬ x < x := by
  intro h
  obtain ⟨hx, -⟩ := isNaN_of_lt h
  exact absurd ((lt_iff_linePlace_lt hx hx).1 h) (Int.lt_irrefl _)

/-! ### Ranks -/

theorem toBits_of_unpack_infinity {x : Float} {s : Sign} (h : x.toModel.unpack = .infinity s) :
    x.toBits.toNat = signBits s + infinitePlace := by
  have hlt := toNat_lt x.toModel.toBits.toBitVec
  have hsign := signBits_ofBitVec x.toModel.toBits.toBitVec
  change UnpackedFloat.unpack Format.binary64 x.toModel.toBits.toBitVec = _ at h
  show x.toModel.toBits.toBitVec.toNat = _
  rw [unpack_eq] at h
  unfold infinitePlace
  split_ifs at h with h1 h2
  obtain rfl := UnpackedFloat.infinity.inj h
  omega

/-- The bits of a float that is not undefined are its sign and its place. -/
theorem exists_toBits_eq {x : Float} (h : x.isNaN = false) :
    ∃ s n, x.toBits.toNat = signBits s + n ∧ n < 2 ^ 63 ∧ linePlace x = s.apply n := by
  have hinf : infinitePlace < 2 ^ 63 := by decide
  unfold linePlace
  cases hu : x.toModel.unpack with
  | notANumber => exact absurd hu (isNaN_eq_false_iff.1 h)
  | infinity s => exact ⟨s, infinitePlace, toBits_of_unpack_infinity hu, hinf, rfl⟩
  | zero s => exact ⟨s, 0, toBits_of_unpack_zero hu, by decide, by cases s <;> rfl⟩
  | finite s m e hm =>
    obtain ⟨hc, hbits⟩ := toBits_of_unpack_finite hu
    refine ⟨s, placeOfSteps m e, ?_, (placeOfSteps_bounds hc).2.trans hinf, rfl⟩
    rw [hbits, bitsOf, placeOfSteps, Nat.add_assoc]

/-- The rank of a float is its place, or one less where it has a sign, so that `-0` ranks below
`0`. -/
theorem exists_rank_eq {x : Float} (h : x.isNaN = false) : ∃ n : Nat,
    (linePlace x = n ∧ rank x = n) ∨ (linePlace x = -n ∧ rank x = -n - 1) := by
  obtain ⟨s, n, hbits, hn, hplace⟩ := exists_toBits_eq h
  refine ⟨n, ?_⟩
  rw [rank, isSigned_eq, hplace, hbits, Nat.pow_eq]
  cases s with
  | positive =>
    have hunsigned : ¬ 2 ^ 63 ≤ signBits .positive + n := by rw [signBits]; omega
    rw [decide_eq_false hunsigned]
    exact .inl ⟨rfl, by simp [signBits]⟩
  | negative =>
    have hsigned : 2 ^ 63 ≤ signBits .negative + n := Nat.le_add_right _ _
    rw [decide_eq_true hsigned]
    refine .inr ⟨rfl, ?_⟩
    simp only [if_true, signBits]
    omega

/-- A float that ranks no higher than another is not above it. -/
theorem not_lt_of_rank_le {x y : Float} (h : rank x ≤ rank y) : ¬ y < x := by
  intro hlt
  obtain ⟨hy, hx⟩ := isNaN_of_lt hlt
  rw [lt_iff_linePlace_lt hy hx] at hlt
  rcases exists_rank_eq hx with ⟨m, hm | hm⟩ <;> rcases exists_rank_eq hy with ⟨n, hn | hn⟩ <;>
    omega

/-- Floats of one rank are equal. -/
theorem rank_injective {x y : Float} (h : rank x = rank y) : x = y := by
  apply eq_of_toBits_eq
  have hx := x.toBits.toNat_lt
  have hy := y.toBits.toNat_lt
  simp only [rank, isSigned_eq, Nat.pow_eq, decide_eq_true_eq] at h
  split_ifs at h <;> omega

/-! ### Sorting -/

theorem sort_perm (xs : List Float) : (sort xs).Perm xs := List.mergeSort_perm xs _

theorem pairwise_sort (xs : List Float) : (sort xs).Pairwise fun x y => rank x ≤ rank y := by
  have hsorted : (sort xs).Pairwise fun x y => decide (rank x ≤ rank y) := by
    refine List.pairwise_mergeSort (fun a b c hab hbc => ?_) (fun a b => ?_) xs
    · exact decide_eq_true ((of_decide_eq_true hab).trans (of_decide_eq_true hbc))
    · simpa using le_total (rank a) (rank b)
  exact hsorted.imp of_decide_eq_true

/-- **What is sorted does not depend on the order of the numbers.** -/
theorem sort_eq_of_perm {xs ys : List Float} (h : xs.Perm ys) : sort xs = sort ys := by
  refine ((sort_perm xs).trans (h.trans (sort_perm ys).symm)).eq_of_pairwise ?_ (pairwise_sort xs)
    (pairwise_sort ys)
  intro a b _ _ hab hba
  exact rank_injective (le_antisymm hab hba)

end SheetTemplate.Number
