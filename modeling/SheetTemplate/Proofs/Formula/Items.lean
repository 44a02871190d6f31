import SheetTemplate.Proofs.Formula.Parentheses

/-!
# The items of an expression level

`WellCut item rest` says when `item` is the first item of its tokens followed by `rest`: a call has
balanced tokens between its parentheses, and a name by itself does not stand in front of a
parenthesis that is closed. `takeItem` finds the one item that is well cut (`takeItem_eq_some_iff`),
so the items that are kept of a level are its items again (`items_firstItems`).
-/

namespace SheetTemplate.Formula

/-- The item is cut off from the tokens behind it where the first item of a level ends. -/
def Item.WellCut : Item → List Token → Prop
  | .call _ inner, _ => Balanced inner
  | .token (.identifier _), .openParen :: ts => closing 0 ts = none
  | .token _, _ => True

theorem takeItem_token {t : Token} {rest : List Token} (h : (Item.token t).WellCut rest) :
    takeItem (t :: rest) = some (.token t, rest) := by
  cases t with
  | identifier name =>
    cases rest with
    | nil => rfl
    | cons u rest =>
      cases u with
      | openParen =>
        have hnone : closing 0 rest = none := h
        simp [takeItem, hnone]
      | _ => rfl
  | _ => rfl

theorem takeItem_call (name : String) {inner : List Token} (h : Balanced inner)
    (rest : List Token) :
    takeItem (.identifier name :: .openParen :: (inner ++ .closeParen :: rest)) =
      some (.call name inner, rest) := by
  simp [takeItem, closing_zero_of_balanced h]

theorem tokens_append_of_takeItem {ts rest : List Token} {item : Item}
    (h : takeItem ts = some (item, rest)) : ts = item.tokens ++ rest ∧ item.WellCut rest := by
  unfold takeItem at h
  split at h
  · cases h
  · rename_i name ts
    split at h
    · rename_i inner rest' hclosing
      cases h
      obtain ⟨rfl, hinner⟩ := closing_eq_some_iff.1 hclosing
      exact ⟨by simp [Item.tokens], hinner⟩
    · rename_i hnone
      cases h
      exact ⟨rfl, hnone⟩
  · rename_i t ts hnot
    cases h
    refine ⟨rfl, ?_⟩
    cases t with
    | identifier name =>
      cases rest with
      | nil => trivial
      | cons u rest =>
        cases u with
        | openParen => exact absurd rfl (hnot name rest rfl)
        | _ => trivial
    | _ => trivial

/-- **The first item of a level** is the one that is well cut. -/
theorem takeItem_eq_some_iff {ts rest : List Token} {item : Item} :
    takeItem ts = some (item, rest) ↔ ts = item.tokens ++ rest ∧ item.WellCut rest := by
  constructor
  · exact tokens_append_of_takeItem
  · rintro ⟨rfl, hcut⟩
    cases item with
    | call name inner => simpa [Item.tokens] using takeItem_call name hcut rest
    | token t => exact takeItem_token hcut

/-- An item stays well cut where fewer tokens follow it. -/
theorem wellCut_of_isPrefix {item : Item} {rest rest' : List Token} (h : item.WellCut rest)
    (hpre : rest' <+: rest) : item.WellCut rest' := by
  obtain ⟨more, rfl⟩ := hpre
  cases item with
  | call name inner => exact h
  | token t =>
    cases t with
    | identifier name =>
      cases rest' with
      | nil => trivial
      | cons u rest' =>
        cases u with
        | openParen =>
          -- a parenthesis that is closed in the shorter list is closed in the longer one
          have hnone : closing 0 (rest' ++ more) = none := h
          show closing 0 rest' = none
          by_contra hsome
          obtain ⟨⟨inner, after⟩, hclosing⟩ := Option.ne_none_iff_exists'.1 hsome
          rw [closing_append hclosing more] at hnone
          cases hnone
        | _ => trivial
    | _ => trivial

theorem items_of_takeItem {ts rest : List Token} {item : Item}
    (h : takeItem ts = some (item, rest)) (cap : Nat) :
    items (cap + 1) ts = item :: items cap rest := by
  simp [items, h]

@[simp] theorem items_nil (cap : Nat) : items cap [] = [] := by cases cap <;> rfl

/-- The tokens that are kept of a level are the first ones. -/
theorem firstItems_isPrefix (cap : Nat) (ts : List Token) : firstItems cap ts <+: ts := by
  induction cap generalizing ts with
  | zero => exact List.nil_prefix
  | succ cap ih =>
    cases h : takeItem ts with
    | none => simp [firstItems, items, h]
    | some p =>
      obtain ⟨item, rest⟩ := p
      rw [firstItems, items_of_takeItem h, List.flatMap_cons, (takeItem_eq_some_iff.1 h).1]
      exact (List.prefix_append_right_inj _).2 (ih rest)

theorem isInfix_of_mem_items {cap : Nat} {ts : List Token} {item : Item} (h : item ∈ items cap ts) :
    item.tokens <:+: ts := by
  obtain ⟨front, back, hsplit⟩ := List.append_of_mem h
  have hprefix := firstItems_isPrefix cap ts
  rw [firstItems, hsplit, List.flatMap_append, List.flatMap_cons] at hprefix
  refine List.IsInfix.trans ⟨front.flatMap Item.tokens, back.flatMap Item.tokens, ?_⟩
    hprefix.isInfix
  rw [List.append_assoc]

/-- The tokens between the parentheses of a call among the items are balanced. -/
theorem balanced_of_call_mem_items {cap : Nat} {ts : List Token} {name : String}
    {inner : List Token} (h : Item.call name inner ∈ items cap ts) : Balanced inner := by
  induction cap generalizing ts with
  | zero => cases h
  | succ cap ih =>
    cases htake : takeItem ts with
    | none => simp [items, htake] at h
    | some p =>
      obtain ⟨item, rest⟩ := p
      rw [items_of_takeItem htake] at h
      rcases List.mem_cons.1 h with rfl | h
      · exact (takeItem_eq_some_iff.1 htake).2
      · exact ih h

/-- **The cap cuts between items**: what is kept of a level has the same items. -/
theorem items_firstItems (cap : Nat) (ts : List Token) :
    items (items cap ts).length (firstItems cap ts) = items cap ts := by
  induction cap generalizing ts with
  | zero => rfl
  | succ cap ih =>
    cases h : takeItem ts with
    | none => simp [items, h]
    | some p =>
      obtain ⟨item, rest⟩ := p
      -- in front of fewer tokens the item is still well cut, so it is taken again
      have hcut := wellCut_of_isPrefix (takeItem_eq_some_iff.1 h).2 (firstItems_isPrefix cap rest)
      have htake := takeItem_eq_some_iff.2 ⟨rfl, hcut⟩
      rw [firstItems, items_of_takeItem h, List.flatMap_cons, List.length_cons]
      show items ((items cap rest).length + 1) (item.tokens ++ firstItems cap rest) = _
      rw [items_of_takeItem htake, ih]

/-- A higher cap changes nothing where no tokens are left. -/
theorem items_of_flatMap_eq {cap more : Nat} {ts : List Token}
    (h : (items cap ts).flatMap Item.tokens = ts) : items (cap + more) ts = items cap ts := by
  induction cap generalizing ts with
  | zero =>
    have : ts = [] := h.symm
    subst this
    simp
  | succ cap ih =>
    cases htake : takeItem ts with
    | none =>
      rw [Nat.add_right_comm]
      simp [items, htake]
    | some p =>
      obtain ⟨item, rest⟩ := p
      rw [items_of_takeItem htake] at h ⊢
      rw [Nat.add_right_comm, items_of_takeItem htake]
      rw [List.flatMap_cons, (takeItem_eq_some_iff.1 htake).1] at h
      rw [ih (List.append_cancel_left h)]

theorem takeItem_eq_none {ts : List Token} (h : takeItem ts = none) : ts = [] := by
  unfold takeItem at h
  split at h
  · rfl
  · split at h <;> cases h
  · cases h

/-- A cap as large as the number of tokens keeps all of them. -/
theorem firstItems_eq_self {cap : Nat} {ts : List Token} (h : ts.length ≤ cap) :
    firstItems cap ts = ts := by
  induction cap generalizing ts with
  | zero => rw [List.length_eq_zero_iff.1 (Nat.le_zero.1 h)]; rfl
  | succ cap ih =>
    cases htake : takeItem ts with
    | none => rw [takeItem_eq_none htake]; rfl
    | some p =>
      obtain ⟨item, rest⟩ := p
      have hts := (takeItem_eq_some_iff.1 htake).1
      have hitem : 1 ≤ item.tokens.length := by cases item <;> simp [Item.tokens]
      have hlength := congrArg List.length hts
      rw [List.length_append] at hlength
      rw [firstItems, items_of_takeItem htake, List.flatMap_cons]
      show item.tokens ++ firstItems cap rest = ts
      rw [ih (by omega), hts]

end SheetTemplate.Formula
