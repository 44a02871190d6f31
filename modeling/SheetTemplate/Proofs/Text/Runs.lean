import SheetTemplate.Text.Blank
import Mathlib.Data.List.Infix

/-!
# Runs of characters

Where a run of characters of one kind ends: in front of the first character of another kind
(`takeWhile_append_of_ends`). So a part in which a character does not occur ends in front of it
(`prefix_iff_of_notMem`), and a text is trimmed at its two ends only (`exists_trim_append`).
-/

namespace SheetTemplate.Text

theorem isBlank_of_isDigit {c : Char} (h : c.isDigit = true) : isBlank c = false := by
  have hrange : 48 ≤ c.toNat ∧ c.toNat ≤ 57 := Char.isDigit_iff_toNat.1 h
  simp only [isBlank, Bool.or_eq_false_iff, Bool.and_eq_false_iff, decide_eq_false_iff_not,
    beq_eq_false_iff_ne, ne_eq]
  omega

/-- A run of characters ends in front of a character of another kind. -/
theorem takeWhile_append_of_ends {p : Char → Bool} {run rest : List Char}
    (hrun : ∀ c ∈ run, p c = true) (hrest : ∀ c ∈ rest.head?, p c = false) :
    (run ++ rest).takeWhile p = run ∧ (run ++ rest).dropWhile p = rest := by
  rw [List.takeWhile_append_of_pos hrun, List.dropWhile_append_of_pos hrun]
  cases rest with
  | nil => simp
  | cons c rest => simp [hrest c rfl]

/-- A front part of a text in which a character does not occur ends in front of this character. -/
theorem prefix_iff_of_notMem {part front : List Char} {c : Char} (h : c ∉ part) (back : List Char) :
    part <+: front ++ c :: back ↔ part <+: front := by
  refine ⟨fun hpart => ?_, fun hpart => hpart.trans (List.prefix_append _ _)⟩
  rcases List.prefix_or_prefix_of_prefix hpart (List.prefix_append front (c :: back)) with hle | hle
  · exact hle
  · -- a longer part would contain the character
    obtain ⟨more, rfl⟩ := hle
    rw [List.prefix_append_right_inj] at hpart
    cases more with
    | nil => simp
    | cons d more =>
      obtain rfl := (List.cons_prefix_cons.1 hpart).1
      exact absurd (List.mem_append_right _ List.mem_cons_self) h

/-- Blanks are taken from the end of a text only. -/
theorem exists_trim_append {front t back : List Char} (hfront : ∀ c ∈ front, isBlank c = true)
    (ht : ∃ c ∈ t.head?, isBlank c = false) (hback : ∃ c ∈ back, isBlank c = false) :
    ∃ rest, trim (front ++ t ++ back) = t ++ rest ∧ rest ≠ [] ∧ rest <+: back := by
  have hend := List.takeWhile_append_dropWhile (p := isBlank) (l := back.reverse)
  have hblank : ∀ c ∈ (back.reverse.takeWhile isBlank).reverse, isBlank c = true :=
    fun c hc => List.all_eq_true.1 List.all_takeWhile c (List.mem_reverse.1 hc)
  obtain ⟨rest, hrest⟩ : ∃ rest, rest = (back.reverse.dropWhile isBlank).reverse := ⟨_, rfl⟩
  have hsplit : back = rest ++ (back.reverse.takeWhile isBlank).reverse := by
    rw [hrest, ← List.reverse_append, hend, List.reverse_reverse]
  have hne : rest ≠ [] := by
    obtain ⟨c, hc, hcb⟩ := hback
    rintro rfl
    rw [List.nil_append] at hsplit
    rw [hblank c (hsplit ▸ hc)] at hcb
    cases hcb
  have hlast : ∀ c ∈ (t ++ rest).getLast?, isBlank c = false := by
    rw [List.getLast?_append_of_ne_nil _ hne, hrest, List.getLast?_reverse]
    intro c hc
    have hnot := List.head?_dropWhile_not isBlank back.reverse
    rwa [Option.mem_def.1 hc] at hnot
  have hhead : ∀ c ∈ (t ++ rest).head?, isBlank c = false := by
    obtain ⟨d, hd, hdb⟩ := ht
    intro c hc
    rw [List.head?_append, Option.mem_def.1 hd, Option.some_or] at hc
    rwa [← Option.some.inj hc]
  refine ⟨rest, ?_, hne, ⟨_, hsplit.symm⟩⟩
  rw [hsplit, ← List.append_assoc, List.append_assoc front, trim_append hfront hblank,
    trim_eq_self hhead hlast]

end SheetTemplate.Text
