import SheetTemplate.Formula.Function
import SheetTemplate.Proofs.Number.Ordering

/-!
# The smallest, the largest and the middle argument

The smallest and the largest argument are found by one walk that keeps the better of two numbers,
where an undefined value is worse than every number. What the walk keeps is the best of what it has
seen (`IsBest`), which each step preserves (`IsBest.step`). The median is the middle of the defined
arguments in their order; if their number is odd, at least half of them are not above it, and at
least half are not below it (`median_of_odd`).
-/

namespace SheetTemplate.Formula.Function

open Number

/-! ### The best of some numbers -/

/-- A choice between two numbers by a strict order, in which no undefined value stands. Of a number
and an undefined value it is the number. -/
structure Chooses (before : Float → Float → Prop) (choose : Float → Float → Float) : Prop where
  trans {x y z : Float} : before x y → before y z → before x z
  irrefl (x : Float) : ¬ before x x
  isNaN {x y : Float} : before x y → x.isNaN = false ∧ y.isNaN = false
  choose_undefined {x : Float} (y : Float) : x.isNaN = true → choose x y = y
  choose_before {x y : Float} : before y x → choose x y = y
  choose_other {x y : Float} : x.isNaN = false → ¬ before y x → choose x y = x

/-- A number is among some others, none of them is before it, and it is undefined only if all of
them are. -/
structure IsBest (before : Float → Float → Prop) (xs : List Float) (x : Float) : Prop where
  mem : x ∈ xs
  not_before : ∀ y ∈ xs, ¬ before y x
  isNaN : x.isNaN = true → ∀ y ∈ xs, y.isNaN = true

variable {before : Float → Float → Prop} {choose : Float → Float → Float}

theorem chooses_smaller : Chooses (· < ·) smaller where
  trans := Number.lt_trans
  irrefl := Number.lt_irrefl
  isNaN := isNaN_of_lt
  choose_undefined y h := by rw [smaller, if_pos h]
  choose_before h := by rw [smaller, (isNaN_of_lt h).2, if_neg Bool.false_ne_true, if_pos h]
  choose_other h hlt := by rw [smaller, h, if_neg Bool.false_ne_true, if_neg hlt]

theorem chooses_larger : Chooses (fun x y => y < x) larger where
  trans h h' := Number.lt_trans h' h
  irrefl := Number.lt_irrefl
  isNaN h := (isNaN_of_lt h).symm
  choose_undefined y h := by rw [larger, if_pos h]
  choose_before h := by rw [larger, (isNaN_of_lt h).1, if_neg Bool.false_ne_true, if_pos h]
  choose_other h hlt := by rw [larger, h, if_neg Bool.false_ne_true, if_neg hlt]

/-- **A choice keeps the best.** -/
theorem IsBest.step (hc : Chooses before choose) {xs : List Float} {x : Float}
    (h : IsBest before xs x) (y : Float) : IsBest before (xs ++ [y]) (choose x y) := by
  by_cases hx : x.isNaN = true
  · -- nothing has been seen but undefined values, and none of them is before anything
    rw [hc.choose_undefined y hx]
    refine ⟨by simp, fun z hz hbefore => ?_, fun hy z hz => ?_⟩ <;>
      rcases List.mem_append.1 hz with hz | hz
    · exact Bool.noConfusion ((hc.isNaN hbefore).1.symm.trans (h.isNaN hx z hz))
    · exact hc.irrefl y (List.mem_singleton.1 hz ▸ hbefore)
    · exact h.isNaN hx z hz
    · exact List.mem_singleton.1 hz ▸ hy
  · rw [Bool.not_eq_true] at hx
    by_cases hyx : before y x
    · rw [hc.choose_before hyx]
      refine ⟨by simp, fun z hz hbefore => ?_, fun hy => ?_⟩
      · rcases List.mem_append.1 hz with hz | hz
        · exact h.not_before z hz (hc.trans hbefore hyx)
        · exact hc.irrefl y (List.mem_singleton.1 hz ▸ hbefore)
      · exact Bool.noConfusion ((hc.isNaN hyx).1.symm.trans hy)
    · rw [hc.choose_other hx hyx]
      refine ⟨List.mem_append_left _ h.mem, fun z hz => ?_, fun hx' => ?_⟩
      · rcases List.mem_append.1 hz with hz | hz
        · exact h.not_before z hz
        · exact List.mem_singleton.1 hz ▸ hyx
      · exact Bool.noConfusion (hx.symm.trans hx')

/-- A walk over some numbers finds the best one. -/
theorem IsBest.foldl (hc : Chooses before choose) {seen : List Float} {x : Float}
    (h : IsBest before seen x) (xs : List Float) :
    IsBest before (seen ++ xs) (xs.foldl choose x) := by
  induction xs generalizing seen x with
  | nil => simpa using h
  | cons y xs ih => simpa using ih (h.step hc y)

theorem isBest_singleton (hc : Chooses before choose) (x : Float) : IsBest before [x] x where
  mem := List.mem_singleton_self x
  not_before _ hy := by
    rw [List.mem_singleton.1 hy]
    exact hc.irrefl x
  isNaN hx _ hy := List.mem_singleton.1 hy ▸ hx

/-- The smallest argument. -/
theorem isBest_min {xs : List Float} (h : xs ≠ []) : IsBest (· < ·) xs (min xs) := by
  obtain ⟨x, xs, rfl⟩ := List.exists_cons_of_ne_nil h
  exact (isBest_singleton chooses_smaller x).foldl chooses_smaller xs

/-- The largest argument. -/
theorem isBest_max {xs : List Float} (h : xs ≠ []) : IsBest (fun x y => y < x) xs (max xs) := by
  obtain ⟨x, xs, rfl⟩ := List.exists_cons_of_ne_nil h
  exact (isBest_singleton chooses_larger x).foldl chooses_larger xs

/-! ### The middle of some numbers -/

/-- The arguments that are not undefined. -/
def defined (xs : List Float) : List Float := xs.filter fun x => !x.isNaN

theorem median_eq (xs : List Float) : median xs = middle (sort (defined xs)) := rfl

/-- Only the defined arguments matter, and their order does not. -/
theorem median_eq_of_perm {xs ys : List Float} (h : (defined xs).Perm (defined ys)) :
    median xs = median ys := by
  rw [median_eq, median_eq, sort_eq_of_perm h]

theorem middle_of_odd {xs : List Float} (h : xs.length % 2 = 1)
    (hlt : xs.length / 2 < xs.length) : middle xs = xs[xs.length / 2] := by
  have hne : xs ≠ [] := List.ne_nil_of_length_pos (by omega)
  rw [middle, if_neg hne, if_neg (by omega), List.getD_eq_getElem]

/-- The numbers up to a place of a list in order do not rank higher than the one there. -/
theorem rank_le_of_mem_take {xs : List Float} (h : xs.Pairwise fun x y => rank x ≤ rank y)
    {i : Nat} (hi : i < xs.length) {x : Float} (hx : x ∈ xs.take (i + 1)) :
    rank x ≤ rank xs[i] := by
  obtain ⟨j, hj, rfl⟩ := List.mem_take_iff_getElem.1 hx
  rcases Nat.lt_or_ge j i with hlt | hge
  · exact List.pairwise_iff_getElem.1 h j i _ hi hlt
  · obtain rfl : j = i := by omega
    exact le_rfl

/-- The numbers from a place of a list in order on do not rank lower than the one there. -/
theorem rank_le_of_mem_drop {xs : List Float} (h : xs.Pairwise fun x y => rank x ≤ rank y)
    {i : Nat} (hi : i < xs.length) {x : Float} (hx : x ∈ xs.drop i) : rank xs[i] ≤ rank x := by
  rw [List.drop_eq_getElem_cons hi] at hx
  rcases List.mem_cons.1 hx with rfl | hx
  · exact le_rfl
  · obtain ⟨j, hj, rfl⟩ := List.mem_drop_iff_getElem.1 hx
    exact List.pairwise_iff_getElem.1 h i (i + 1 + j) hi (by omega) (by omega)

/-- As many numbers as there are up to a place of a list in order are not above the one there. -/
theorem succ_le_countP_not_above {xs : List Float} (h : xs.Pairwise fun x y => rank x ≤ rank y)
    {i : Nat} (hi : i < xs.length) : i + 1 ≤ xs.countP fun x => ¬ xs[i] < x := by
  calc i + 1 = (xs.take (i + 1)).length := by rw [List.length_take, Nat.min_eq_left hi]
    _ = (xs.take (i + 1)).countP fun x => ¬ xs[i] < x := by
        refine (List.countP_eq_length.2 fun x hx => ?_).symm
        exact decide_eq_true (not_lt_of_rank_le (rank_le_of_mem_take h hi hx))
    _ ≤ xs.countP fun x => ¬ xs[i] < x := (List.take_sublist _ _).countP_le

/-- As many numbers as there are from a place of a list in order on are not below the one there. -/
theorem length_sub_le_countP_not_below {xs : List Float}
    (h : xs.Pairwise fun x y => rank x ≤ rank y) {i : Nat} (hi : i < xs.length) :
    xs.length - i ≤ xs.countP fun x => ¬ x < xs[i] := by
  calc xs.length - i = (xs.drop i).length := List.length_drop.symm
    _ = (xs.drop i).countP fun x => ¬ x < xs[i] := by
        refine (List.countP_eq_length.2 fun x hx => ?_).symm
        exact decide_eq_true (not_lt_of_rank_le (rank_le_of_mem_drop h hi hx))
    _ ≤ xs.countP fun x => ¬ x < xs[i] := (List.drop_sublist _ _).countP_le

/-- An odd number of arguments has one in the middle. -/
theorem median_of_odd {xs : List Float} (h : (defined xs).length % 2 = 1) :
    median xs ∈ defined xs ∧
      ((defined xs).length + 1) / 2 ≤ (defined xs).countP (fun x => ¬ median xs < x) ∧
      ((defined xs).length + 1) / 2 ≤ (defined xs).countP (fun x => ¬ x < median xs) := by
  have hperm := sort_perm (defined xs)
  have hsorted := pairwise_sort (defined xs)
  have hlength : (sort (defined xs)).length = (defined xs).length := hperm.length_eq
  rw [← hlength] at h ⊢
  have hlt : (sort (defined xs)).length / 2 < (sort (defined xs)).length := by omega
  rw [median_eq, middle_of_odd h hlt, ← hperm.countP_eq, ← hperm.countP_eq]
  refine ⟨hperm.mem_iff.1 (List.getElem_mem _), ?_, ?_⟩
  · exact le_trans (by omega) (succ_le_countP_not_above hsorted hlt)
  · exact le_trans (by omega) (length_sub_le_countP_not_below hsorted hlt)

/-! ### Order statistics -/

theorem isBest_isNaN_iff {before : Float → Float → Prop} {xs : List Float} {x : Float}
    (h : IsBest before xs x) : x.isNaN = true ↔ ∀ y ∈ xs, y.isNaN = true :=
  ⟨h.isNaN, fun hall => hall x h.mem⟩

/-- **Order statistics depend on the values of their arguments.** The median is the same for all
arguments whose defined ones are the same up to their order, so it does not depend on the order of
the arguments nor on undefined values between them; of an odd number of defined arguments it is one
that at least half of them are not above, and at least half not below. The smallest and the largest
of some arguments, one of which is defined, are arguments that none is below or above, and they are
undefined only where there are arguments and all of them are. -/
theorem order_statistics (xs : List Float) :
    (∀ ys, (defined xs).Perm (defined ys) → median ys = median xs) ∧
    ((defined xs).length % 2 = 1 → median xs ∈ defined xs ∧
      ((defined xs).length + 1) / 2 ≤ (defined xs).countP (fun x => ¬ median xs < x) ∧
      ((defined xs).length + 1) / 2 ≤ (defined xs).countP (fun x => ¬ x < median xs)) ∧
    ((∃ x ∈ xs, x.isNaN = false) →
      min xs ∈ xs ∧ max xs ∈ xs ∧ ∀ x ∈ xs, ¬ x < min xs ∧ ¬ max xs < x) ∧
    ((min xs).isNaN = true ↔ xs ≠ [] ∧ ∀ x ∈ xs, x.isNaN = true) ∧
    ((max xs).isNaN = true ↔ xs ≠ [] ∧ ∀ x ∈ xs, x.isNaN = true) := by
  refine ⟨fun ys h => median_eq_of_perm h.symm, median_of_odd, fun ⟨x, hx, _⟩ => ?_, ?_, ?_⟩
  · have hmin := isBest_min (List.ne_nil_of_mem hx)
    have hmax := isBest_max (List.ne_nil_of_mem hx)
    exact ⟨hmin.mem, hmax.mem, fun y hy => ⟨hmin.not_before y hy, hmax.not_before y hy⟩⟩
  · by_cases hne : xs = []
    · subst hne
      decide
    · rw [isBest_isNaN_iff (isBest_min hne), and_iff_right hne]
  · by_cases hne : xs = []
    · subst hne
      decide
    · rw [isBest_isNaN_iff (isBest_max hne), and_iff_right hne]

/-- Undefined and infinite values, and both zeros. -/
theorem order_statistics_zeros :
    let nan : Float := 0 / 0
    let infinity : Float := 1 / 0
    let xs := [nan, 3, 0, nan, infinity, -0, -infinity]
    median [-infinity, -0, 0, 3, infinity] = median xs ∧ median xs ∈ defined xs ∧
      min xs ∈ xs ∧ ¬ -infinity < min xs ∧ ¬ max xs < infinity ∧
      (min [nan, nan]).isNaN = true := by
  intro nan infinity xs
  obtain ⟨hperm, hodd, hbest, -, -⟩ := order_statistics xs
  obtain ⟨hmin, -, hbounds⟩ := hbest ⟨3, by simp [xs], by decide +kernel⟩
  refine ⟨hperm _ ?_, (hodd (by decide +kernel)).1, hmin, (hbounds _ (by simp [xs])).1,
    (hbounds _ (by simp [xs])).2, ?_⟩
  · decide +kernel
  · exact (order_statistics [nan, nan]).2.2.2.1.2 ⟨by simp, by decide +kernel⟩

end SheetTemplate.Formula.Function
