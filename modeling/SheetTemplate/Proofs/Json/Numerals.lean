import SheetTemplate.Json.Number
import SheetTemplate.Json.Reader
import SheetTemplate.Proofs.Number.Reading
import SheetTemplate.Proofs.Text.Runs

/-!
# Numbers of documents

A number that the grammar of JSON allows is read back digit by digit, in front of a character that
ends a value (`takeNumeral_chars`). What is written of a finite float (`wellFormed_ofFloat`) or of a
count (`wellFormed_ofNat`) is such a number.
-/

namespace SheetTemplate.Json

/-- What may stand behind a value: nothing, or a character that ends an item or a list of them. -/
def Closes (rest : List Char) : Prop := ∀ c ∈ rest.head?, c ∈ [',', ']', '}']

theorem closes_nil : Closes [] := nofun

theorem closes_cons {c : Char} (h : c ∈ [',', ']', '}']) (cs : List Char) : Closes (c :: cs) := by
  rintro d hd
  rwa [← Option.some.inj hd]

/-- A character that ends a value is no part of a number. -/
theorem Closes.not_numeral {rest : List Char} (h : Closes rest) {c : Char} (hc : c ∈ rest.head?) :
    c.isDigit = false ∧ c ≠ '.' ∧ c ≠ 'e' ∧ c ≠ 'E' := by
  have hends := h c hc
  simp only [List.mem_cons, List.not_mem_nil, or_false] at hends
  rcases hends with rfl | rfl | rfl <;> decide

namespace Numeral

/-- A number that the grammar of JSON allows. -/
structure WellFormed (n : Numeral) : Prop where
  isWhole : isWhole n.whole = true
  wholeDigits : ∀ c ∈ n.whole, c.isDigit = true
  fractionDigits : ∀ c ∈ n.fraction, c.isDigit = true
  exponentDigits : ∀ c ∈ n.exponent, c.isDigit = true
  sign : n.exponentSign = [] ∨ n.exponentSign = ['+'] ∨ n.exponentSign = ['-']
  noSign : n.exponent = [] → n.exponentSign = []

/-- The text of a fraction. -/
def fractionChars (ds : List Char) : List Char := if ds = [] then [] else '.' :: ds

/-- The text of an exponent. -/
def exponentChars (sign ds : List Char) : List Char := if ds = [] then [] else 'e' :: (sign ++ ds)

theorem chars_eq (n : Numeral) : n.chars = (if n.negative then ['-'] else []) ++ (n.whole ++
    (fractionChars n.fraction ++ exponentChars n.exponentSign n.exponent)) := by
  simp only [chars, fractionChars, exponentChars, List.append_assoc]

end Numeral

variable {ds sign rest : List Char}

theorem head_ne_of_isDigit {c d : Char} (hds : ∀ c ∈ ds, c.isDigit = true)
    (hd : d.isDigit = false) (hc : c ∈ ds.head?) : c ≠ d := by
  rintro rfl
  rw [hds c (List.mem_of_mem_head? hc)] at hd
  cases hd

theorem takeExponent_of_head (h : ∀ c ∈ rest.head?, c ≠ 'e' ∧ c ≠ 'E') :
    takeExponent rest = some (([], []), rest) := by
  unfold takeExponent
  split
  · exact absurd rfl (h 'e' rfl).1
  · exact absurd rfl (h 'E' rfl).2
  · rfl

theorem takeExponent_exponentChars (hsign : sign = [] ∨ sign = ['+'] ∨ sign = ['-'])
    (hds : ∀ c ∈ ds, c.isDigit = true) (hnone : ds = [] → sign = []) (hrest : Closes rest) :
    takeExponent (Numeral.exponentChars sign ds ++ rest) = some ((sign, ds), rest) := by
  unfold Numeral.exponentChars
  split_ifs with hnil
  · rw [hnone hnil, hnil]
    exact takeExponent_of_head fun c hc => (hrest.not_numeral hc).2.2
  · obtain ⟨htake, hdrop⟩ := Text.takeWhile_append_of_ends hds fun c hc => (hrest.not_numeral hc).1
    rcases hsign with rfl | rfl | rfl
    · cases ds with
      | nil => exact absurd rfl hnil
      | cons d ds =>
        have hplus : d ≠ '+' := head_ne_of_isDigit hds rfl rfl
        have hminus : d ≠ '-' := head_ne_of_isDigit hds rfl rfl
        simp only [List.cons_append, List.nil_append] at htake hdrop ⊢
        simp only [takeExponent]
        split
        · exact absurd (List.cons.inj ‹_›).1 hplus
        · exact absurd (List.cons.inj ‹_›).1 hminus
        · rw [htake, hdrop, if_neg hnil]
    · simp only [List.cons_append, List.nil_append, takeExponent, htake, hdrop, if_neg hnil]
    · simp only [List.cons_append, List.nil_append, takeExponent, htake, hdrop, if_neg hnil]

theorem takeFraction_fractionChars (hds : ∀ c ∈ ds, c.isDigit = true)
    (hrest : ∀ c ∈ rest.head?, c.isDigit = false ∧ c ≠ '.') :
    takeFraction (Numeral.fractionChars ds ++ rest) = some (ds, rest) := by
  unfold Numeral.fractionChars
  split_ifs with hnil
  · rw [List.nil_append, hnil]
    unfold takeFraction
    split
    · exact absurd rfl (hrest '.' rfl).2
    · rfl
  · obtain ⟨htake, hdrop⟩ := Text.takeWhile_append_of_ends hds fun c hc => (hrest c hc).1
    simp only [List.cons_append, takeFraction, htake, hdrop, if_neg hnil]

/-- Behind the digits of a number stands no digit, and behind its fraction no point. -/
theorem head_exponentChars (hrest : Closes rest) {c : Char}
    (hc : c ∈ (Numeral.exponentChars sign ds ++ rest).head?) : c.isDigit = false ∧ c ≠ '.' := by
  unfold Numeral.exponentChars at hc
  split_ifs at hc with hnil
  · exact ⟨(hrest.not_numeral hc).1, (hrest.not_numeral hc).2.1⟩
  · obtain rfl := Option.some.inj hc
    decide

theorem head_fractionChars (hrest : ∀ c ∈ rest.head?, c.isDigit = false) {c : Char}
    (hc : c ∈ (Numeral.fractionChars ds ++ rest).head?) : c.isDigit = false := by
  unfold Numeral.fractionChars at hc
  split_ifs at hc with hnil
  · exact hrest c hc
  · obtain rfl := Option.some.inj hc
    rfl

/-- **A number is read back from its text**, in front of what ends a value. -/
theorem takeNumeral_chars {n : Numeral} (h : n.WellFormed) (hrest : Closes rest) :
    takeNumeral (n.chars ++ rest) = some (n, rest) := by
  obtain ⟨negative, whole, fraction, sign, exponent⟩ := n
  obtain ⟨hwhole, hw, hf, he, hsign, hnone⟩ := h
  simp only at hwhole hw hf he hsign hnone
  have hbehind : ∀ c ∈ (Numeral.exponentChars sign exponent ++ rest).head?,
      c.isDigit = false ∧ c ≠ '.' := fun c hc => head_exponentChars hrest hc
  have hfront : ∀ c ∈ (Numeral.fractionChars fraction ++
      (Numeral.exponentChars sign exponent ++ rest)).head?, c.isDigit = false :=
    fun c hc => head_fractionChars (fun c hc => (hbehind c hc).1) hc
  obtain ⟨htake, hdrop⟩ := Text.takeWhile_append_of_ends hw hfront
  have hfraction := takeFraction_fractionChars hf hbehind
  have hexponent := takeExponent_exponentChars hsign he hnone hrest
  rw [Numeral.chars_eq]
  cases negative with
  | true =>
    simp only [if_true, List.append_assoc, List.cons_append, List.nil_append, takeNumeral, htake,
      hdrop, hwhole, hfraction, hexponent]
  | false =>
    cases whole with
    | nil => cases hwhole
    | cons d ds =>
      have hminus : d ≠ '-' := head_ne_of_isDigit hw rfl rfl
      simp only [List.cons_append] at htake hdrop
      simp only [Bool.false_eq_true, if_false, List.append_assoc, List.cons_append,
        List.nil_append, takeNumeral]
      split
      · exact absurd (List.cons.inj ‹_›).1 hminus
      · simp only [htake, hdrop, hwhole, if_true, hfraction, hexponent]

/-! ### What is written -/

open Number

theorem isWhole_of_head {c : Char} (hc : c ≠ '0') (cs : List Char) : isWhole (c :: cs) = true := by
  unfold isWhole
  split
  · exact absurd ‹_› (List.cons_ne_nil _ _)
  · rfl
  · exact absurd (List.cons.inj ‹_›).1 hc
  · rfl

theorem isWhole_singleton (c : Char) : isWhole [c] = true := by
  by_cases hc : c = '0'
  · rw [hc]
    rfl
  · exact isWhole_of_head hc []

theorem isWhole_digitsOfNat (n : Nat) : isWhole (digitsOfNat n) = true := by
  rcases Nat.eq_zero_or_pos n with rfl | hn
  · rfl
  · obtain ⟨c, cs, hcs, hc⟩ := exists_digitsOfNat hn
    rw [hcs]
    exact isWhole_of_head hc cs

namespace Numeral

/-- A count is written as a number of digits alone. -/
theorem wellFormed_ofNat (n : Nat) : (ofNat n).WellFormed :=
  ⟨isWhole_digitsOfNat n, fun _ hc => isDigit_of_mem_digitsOfNat hc, List.forall_mem_nil _,
    List.forall_mem_nil _, .inl rfl, fun _ => rfl⟩

/-- A count that a document can hold is read back. -/
theorem toNat?_ofNat {n : Nat} (h : n ≤ maxCount) : (ofNat n).toNat? = some n := by
  have hnone : ¬ (false = true ∨ ([] : List Char) ≠ [] ∨ ([] : List Char) ≠ []) := by simp
  simp only [toNat?, ofNat, natOfDigits_digitsOfNat, if_pos h]
  rw [if_neg hnone]

/-- The digits of a layout in front of its point are a whole number of JSON. -/
theorem isWhole_whole {l : Layout} (h : 0 < l.point → ∃ c cs, l.digits = c :: cs ∧ c ≠ '0') :
    Json.isWhole l.whole = true := by
  unfold Layout.whole
  split_ifs with hpoint
  · rfl
  · obtain ⟨c, cs, hcs, hc⟩ := h (by omega)
    obtain ⟨n, hn⟩ : ∃ n, l.point.toNat = n + 1 := ⟨l.point.toNat - 1, by omega⟩
    rw [hcs, hn, List.take_succ_cons, List.cons_append]
    exact isWhole_of_head hc _

/-- **A finite float is written as a number that the grammar of JSON allows.** -/
theorem wellFormed_ofFloat {x : Float} (h : x.isFinite = true) : (ofFloat x).WellFormed := by
  have hdigits := Layout.hasDigits_shortest .toEven x.abs
  have hfirst : x.abs ≠ 0 →
      ∃ c cs, (Layout.shortest .toEven x.abs).digits = c :: cs ∧ c ≠ '0' :=
    Layout.exists_digits_shortest .toEven (isFinite_abs h) (isSigned_abs h)
  have hzero : x.abs = 0 → (Layout.shortest .toEven x.abs).point = 0 := fun h0 => by
    rw [Layout.shortest, if_pos h0]
    rfl
  unfold ofFloat
  generalize Layout.shortest .toEven x.abs = l at hdigits hfirst hzero ⊢
  by_cases hfull : -5 ≤ l.point - 1 ∧ l.point - 1 < 16
  · rw [if_pos hfull]
    refine ⟨isWhole_whole fun hpoint => hfirst fun h0 => ?_,
      fun c hc => Layout.isDigit_of_mem_whole hdigits hc, ?_, List.forall_mem_nil _, .inl rfl,
      fun _ => rfl⟩
    · rw [hzero h0] at hpoint
      exact absurd hpoint (lt_irrefl _)
    · intro c hc
      change c ∈ (if l.fraction = [] then ['0'] else l.fraction) at hc
      split_ifs at hc
      · obtain rfl := List.mem_singleton.1 hc
        rfl
      · exact Layout.isDigit_of_mem_fraction hdigits hc
  · have h0 : x.abs ≠ 0 := fun h0 => hfull (by rw [hzero h0]; decide)
    obtain ⟨c, cs, hcs, -⟩ := hfirst h0
    have hexponent : digitsOfNat (l.point - 1).natAbs ≠ [] := Nat.toDigits_ne_nil
    rw [if_neg hfull, hcs]
    refine ⟨isWhole_singleton c, ?_, ?_, fun c hc => isDigit_of_mem_digitsOfNat hc, ?_,
      fun hnil => absurd hnil hexponent⟩
    · intro d hd
      obtain rfl := List.mem_singleton.1 hd
      exact hdigits d (hcs ▸ List.mem_cons_self)
    · intro d hd
      exact hdigits d (hcs ▸ List.mem_cons_of_mem _ hd)
    · show (if l.point - 1 < 0 then ['-'] else ['+']) = [] ∨ _
      split_ifs
      · exact .inr (.inr rfl)
      · exact .inr (.inl rfl)

end Numeral

end SheetTemplate.Json
