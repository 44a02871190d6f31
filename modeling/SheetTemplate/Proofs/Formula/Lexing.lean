import SheetTemplate.Proofs.Formula.Shape

/-!
# All tokens of a text

Every token takes up characters of its own, so a cap as large as the text drops none of its tokens
(`tokensOf_eq_tokensIn`); `tokensIn` lists all of them.
-/

namespace SheetTemplate.Formula

/-! ### Progress -/

theorem takeNumber_suffix (cs : List Char) : (takeNumber cs).2 <:+ cs := by
  have hdrop : cs.dropWhile Char.isDigit <:+ cs := List.dropWhile_suffix _
  unfold takeNumber
  split
  · rename_i rest hrest
    exact (List.dropWhile_suffix _).trans ((List.suffix_cons _ _).trans (hrest ▸ hdrop))
  · exact hdrop

theorem takeWord_suffix {c : Char} {cs rest : List Char} {t : Token}
    (h : takeWord (c :: cs) = some (t, rest)) : rest <:+ cs := by
  simp only [takeWord] at h
  split_ifs at h with hnumber hname
  · obtain ⟨-, rfl⟩ := Prod.mk.inj (Option.some.inj h)
    unfold takeNumber
    by_cases hdigit : c.isDigit = true
    · rw [List.dropWhile_cons_of_pos hdigit]
      have hdrop : cs.dropWhile Char.isDigit <:+ cs := List.dropWhile_suffix _
      split
      · rename_i rest hrest
        exact (List.dropWhile_suffix _).trans ((List.suffix_cons _ _).trans (hrest ▸ hdrop))
      · exact hdrop
    · -- a number that starts with no digit starts with a point
      obtain rfl : c = '.' := by
        by_contra hdot
        rw [startsNumber_eq_false _ (by simpa using hdigit) hdot] at hnumber
        cases hnumber
      rw [List.dropWhile_cons_of_neg hdigit]
      exact List.dropWhile_suffix _
  · obtain ⟨-, rfl⟩ := Prod.mk.inj (Option.some.inj h)
    exact List.dropWhile_suffix _

/-- A token takes up at least the first character. -/
theorem takeToken_suffix {signed : Bool} {c : Char} {cs rest : List Char} {t : Token}
    (h : takeToken signed (c :: cs) = some (t, rest)) : rest <:+ cs := by
  unfold takeToken at h
  split at h
  case h_2 heq =>
    obtain ⟨rfl, rfl⟩ := List.cons.inj heq
    split at h
    · obtain ⟨-, rfl⟩ := Prod.mk.inj (Option.some.inj h)
      exact takeNumber_suffix _
    · obtain ⟨-, rfl⟩ := Prod.mk.inj (Option.some.inj h)
      exact List.suffix_rfl
  case h_16 => exact takeWord_suffix h
  all_goals
    rename_i heq
    obtain ⟨rfl, rfl⟩ := List.cons.inj heq
    obtain ⟨-, rfl⟩ := Prod.mk.inj (Option.some.inj h)
    first
      | exact List.suffix_rfl
      | exact List.suffix_cons _ _

theorem length_lt_of_nextToken {signed : Bool} {cs rest : List Char} {t : Token}
    (h : nextToken signed cs = some (t, rest)) : rest.length < cs.length := by
  obtain ⟨c, cs', hsuffix, htake⟩ := exists_takeToken_of_nextToken h
  exact (Nat.lt_succ_of_le (takeToken_suffix htake).length_le).trans_le hsuffix.length_le

/-! ### Caps -/

theorem tokensOf_of_nextToken {signed : Bool} {cs rest : List Char} {t : Token}
    (h : nextToken signed cs = some (t, rest)) (cap : Nat) :
    tokensOf (cap + 1) signed cs = t :: tokensOf cap t.precedesOperand rest := by
  rw [tokensOf, h]

/-- A text has at most as many tokens as characters. -/
theorem length_tokensOf_le (cap : Nat) (signed : Bool) (cs : List Char) :
    (tokensOf cap signed cs).length ≤ cs.length := by
  induction cap generalizing signed cs with
  | zero => exact Nat.zero_le _
  | succ cap ih =>
    cases hnext : nextToken signed cs with
    | none => simp [tokensOf, hnext]
    | some p =>
      obtain ⟨t, rest⟩ := p
      rw [tokensOf_of_nextToken hnext]
      exact (Nat.succ_le_succ (ih _ rest)).trans (length_lt_of_nextToken hnext)

/-- A lower cap keeps the first tokens. -/
theorem tokensOf_eq_take {m n : Nat} (h : m ≤ n) (signed : Bool) (cs : List Char) :
    tokensOf m signed cs = (tokensOf n signed cs).take m := by
  induction m generalizing n signed cs with
  | zero => rfl
  | succ m ih =>
    obtain ⟨n, rfl⟩ : ∃ k, n = k + 1 := ⟨n - 1, by omega⟩
    cases hnext : nextToken signed cs with
    | none => simp [tokensOf, hnext]
    | some p =>
      obtain ⟨t, rest⟩ := p
      rw [tokensOf_of_nextToken hnext, tokensOf_of_nextToken hnext, List.take_succ_cons,
        ih (Nat.le_of_succ_le_succ h)]

/-- All tokens of a text. -/
def tokensIn (signed : Bool) (cs : List Char) : List Token := tokensOf cs.length signed cs

/-- **A cap that is no less than the length of a text drops none of its tokens.** -/
theorem tokensOf_eq_tokensIn {cap : Nat} {cs : List Char} (h : cs.length ≤ cap) (signed : Bool) :
    tokensOf cap signed cs = tokensIn signed cs := by
  rw [tokensIn, tokensOf_eq_take h, List.take_of_length_le (length_tokensOf_le _ _ _)]

theorem tokensIn_of_nextToken_eq_none {signed : Bool} {cs : List Char}
    (h : nextToken signed cs = none) : tokensIn signed cs = [] := by
  unfold tokensIn
  cases cs.length with
  | zero => rfl
  | succ n => rw [tokensOf, h]

theorem tokensIn_of_nextToken {signed : Bool} {cs rest : List Char} {t : Token}
    (h : nextToken signed cs = some (t, rest)) :
    tokensIn signed cs = t :: tokensIn t.precedesOperand rest := by
  have hlt := length_lt_of_nextToken h
  obtain ⟨n, hn⟩ : ∃ n, cs.length = n + 1 := ⟨cs.length - 1, by omega⟩
  rw [tokensIn, hn, tokensOf_of_nextToken h, tokensOf_eq_tokensIn (by omega)]

theorem tokensIn_of_takeToken {signed : Bool} {cs rest : List Char} {t : Token}
    (h : takeToken signed cs = some (t, rest)) :
    tokensIn signed cs = t :: tokensIn t.precedesOperand rest := by
  cases cs with
  | nil => cases h
  | cons c cs => exact tokensIn_of_nextToken (by rw [nextToken, h, Option.some_or])

/-- A character that starts no token is skipped. -/
theorem tokensIn_cons_of_none {signed : Bool} {c : Char} {cs : List Char}
    (h : takeToken signed (c :: cs) = none) : tokensIn signed (c :: cs) = tokensIn signed cs := by
  have hnext : nextToken signed (c :: cs) = nextToken signed cs := by
    rw [nextToken, h, Option.none_or]
  cases hcs : nextToken signed cs with
  | none =>
    rw [tokensIn_of_nextToken_eq_none hcs, tokensIn_of_nextToken_eq_none (hnext.trans hcs)]
  | some p => rw [tokensIn_of_nextToken hcs, tokensIn_of_nextToken (hnext.trans hcs)]

theorem isRead_of_mem_tokensIn {signed : Bool} {cs : List Char} {t : Token}
    (h : t ∈ tokensIn signed cs) : IsRead t :=
  isRead_of_mem_tokensOf h

end SheetTemplate.Formula
