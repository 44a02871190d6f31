import SheetTemplate.Proofs.Formula.Room

/-!
# The cap on the items of a level

`ItemsOf` says what the items of a level are: a call whose closing parenthesis is there, or else any
token. Every level has one list of items (`itemsOf_iff`), and a cap keeps the first ones of them
(`items_eq_take`), which are the items of the tokens that are left (`itemsIn_firstItems`). So a cap
does not cut through a call: a call that starts among the tokens that are left is closed where it
was closed before (`closing_firstItems`), be it an item of its own or one inside another call.
-/

namespace SheetTemplate.Formula

/-- The tokens start with a call whose closing parenthesis is there. -/
def StartsCall (ts : List Token) : Prop :=
  ∃ name inner rest, ts = .identifier name :: .openParen :: (inner ++ .closeParen :: rest) ∧
    Balanced inner

/-- The items of a level, where a call whose closing parenthesis is there counts as one. -/
inductive ItemsOf : List Token → List Item → Prop
  | nil : ItemsOf [] []
  | call {name : String} {inner rest : List Token} {its : List Item} : Balanced inner →
      ItemsOf rest its →
      ItemsOf (.identifier name :: .openParen :: (inner ++ .closeParen :: rest))
        (.call name inner :: its)
  | token {t : Token} {rest : List Token} {its : List Item} : ¬ StartsCall (t :: rest) →
      ItemsOf rest its → ItemsOf (t :: rest) (.token t :: its)

/-- The place of the parenthesis that closes the one at a place. -/
def closingPlace (ts : List Token) (place : Nat) : Option Nat :=
  (closing 0 (ts.drop (place + 1))).map fun p => place + 1 + p.1.length

/-! ### The items of a level -/

theorem wellCut_token_iff {t : Token} {rest : List Token} :
    (Item.token t).WellCut rest ↔ ¬ StartsCall (t :: rest) := by
  constructor
  · rintro hcut ⟨name, inner, back, heq, hinner⟩
    obtain ⟨rfl, rfl⟩ := List.cons.inj heq
    have hnone : closing 0 (inner ++ .closeParen :: back) = none := hcut
    rw [closing_zero_of_balanced hinner] at hnone
    cases hnone
  · intro hcall
    cases t with
    | identifier name =>
      cases rest with
      | nil => trivial
      | cons u rest =>
        cases u with
        | openParen =>
          show closing 0 rest = none
          by_contra hsome
          obtain ⟨⟨inner, back⟩, hclosing⟩ := Option.ne_none_iff_exists'.1 hsome
          obtain ⟨rfl, hinner⟩ := closing_eq_some_iff.1 hclosing
          exact hcall ⟨name, inner, back, rfl, hinner⟩
        | _ => trivial
    | _ => trivial

theorem itemsIn_of_itemsOf {ts : List Token} {its : List Item} (h : ItemsOf ts its) :
    itemsIn ts = its := by
  induction h with
  | nil => rfl
  | call hinner _ ih => rw [itemsIn_of_takeItem (takeItem_call _ hinner _), ih]
  | token hcall _ ih =>
    rw [itemsIn_of_takeItem (takeItem_token (wellCut_token_iff.2 hcall)), ih]

theorem itemsOf_itemsIn (ts : List Token) : ItemsOf ts (itemsIn ts) := by
  -- on the length, as the tokens behind a call are not the tail of the level
  induction hn : ts.length using Nat.strongRecOn generalizing ts with
  | _ n ih =>
    subst hn
    cases htake : takeItem ts with
    | none =>
      obtain rfl := takeItem_eq_none htake
      exact .nil
    | some p =>
      obtain ⟨item, rest⟩ := p
      have hrest := ih _ (length_lt_of_takeItem htake) rest rfl
      rw [itemsIn_of_takeItem htake]
      obtain ⟨rfl, hcut⟩ := takeItem_eq_some_iff.1 htake
      cases item with
      | call name inner => simpa [Item.tokens] using ItemsOf.call hcut hrest
      | token t => exact .token (wellCut_token_iff.1 hcut) hrest

/-- **A level has one list of items.** -/
theorem itemsOf_iff {ts : List Token} {its : List Item} : ItemsOf ts its ↔ its = itemsIn ts :=
  ⟨fun h => (itemsIn_of_itemsOf h).symm, fun h => h ▸ itemsOf_itemsIn ts⟩

/-- A cap keeps the first items. -/
theorem items_eq_take (cap : Nat) (ts : List Token) : items cap ts = (itemsIn ts).take cap := by
  induction cap generalizing ts with
  | zero => rfl
  | succ cap ih =>
    cases htake : takeItem ts with
    | none =>
      obtain rfl := takeItem_eq_none htake
      rfl
    | some p =>
      obtain ⟨item, rest⟩ := p
      rw [items_of_takeItem htake, itemsIn_of_takeItem htake, List.take_succ_cons, ih]

theorem flatMap_tokens_itemsIn (ts : List Token) : (itemsIn ts).flatMap Item.tokens = ts :=
  firstItems_eq_self le_rfl

theorem length_le_flatMap_tokens (its : List Item) :
    its.length ≤ (its.flatMap Item.tokens).length := by
  induction its with
  | nil => exact le_rfl
  | cons item its ih =>
    have hitem : 1 ≤ item.tokens.length := by cases item <;> simp [Item.tokens]
    rw [List.flatMap_cons, List.length_append, List.length_cons]
    omega

/-- The items that are kept are those of the tokens that are left. -/
theorem itemsIn_firstItems (cap : Nat) (ts : List Token) :
    itemsIn (firstItems cap ts) = items cap ts := by
  obtain ⟨more, hmore⟩ := Nat.exists_eq_add_of_le (length_le_flatMap_tokens (items cap ts))
  change (firstItems cap ts).length = _ at hmore
  have hkept := items_firstItems cap ts
  rw [itemsIn, hmore, items_of_flatMap_eq (by rw [hkept]; rfl), hkept]

theorem items_firstItems_self (cap : Nat) (ts : List Token) :
    items cap (firstItems cap ts) = items cap ts := by
  rw [items_eq_take, itemsIn_firstItems, items_eq_take, List.take_take, Nat.min_self]

/-! ### Calls among the tokens that are left -/

/-- Between balanced tokens, a parenthesis is closed. -/
theorem Balanced.exists_closed {front back : List Token}
    (h : Balanced (front ++ .openParen :: back)) :
    ∃ inner rest, back = inner ++ .closeParen :: rest ∧ Balanced inner := by
  generalize hts : front ++ Token.openParen :: back = ts at h
  induction h generalizing front back with
  | nil => simp at hts
  | @token t ts ht _ ih =>
    cases front with
    | nil =>
      obtain ⟨rfl, -⟩ := List.cons.inj hts
      cases ht
    | cons u front => exact ih (List.cons.inj hts).2
  | @paren inner ts hinner _ ih₁ ih₂ =>
    cases front with
    | nil => exact ⟨inner, ts, (List.cons.inj hts).2, hinner⟩
    | cons u front =>
      -- the parenthesis stands inside the outer pair or behind it
      have hinside := List.append_eq_append_iff.1 (List.cons.inj hts).2
      rcases hinside with ⟨mid, rfl, hmid⟩ | ⟨mid, rfl, hmid⟩
      · cases mid with
        | nil => cases hmid
        | cons v mid =>
          obtain ⟨rfl, rfl⟩ := List.cons.inj hmid
          obtain ⟨inner', rest, rfl, hinner'⟩ := ih₁ rfl
          exact ⟨inner', rest ++ .closeParen :: ts, by simp, hinner'⟩
      · cases mid with
        | nil => cases hmid
        | cons v mid =>
          obtain ⟨rfl, rfl⟩ := List.cons.inj hmid
          exact ih₂ rfl

/-- The tokens in front of the parenthesis that closes are found once. -/
theorem Balanced.closed_unique {inner inner' rest rest' : List Token} (h : Balanced inner)
    (h' : Balanced inner') (heq : inner ++ .closeParen :: rest = inner' ++ .closeParen :: rest') :
    inner = inner' ∧ rest = rest' := by
  have hsame := closing_zero_of_balanced h rest
  rw [heq, closing_zero_of_balanced h' rest'] at hsame
  cases hsame
  exact ⟨rfl, rfl⟩

/-- A parenthesis between balanced tokens is not closed behind them. -/
theorem Balanced.closed_within {front back inner after rest : List Token}
    (h : Balanced (front ++ .openParen :: back)) (hinner : Balanced inner)
    (heq : back ++ after = inner ++ .closeParen :: rest) :
    ∃ rest', back = inner ++ .closeParen :: rest' := by
  obtain ⟨inner', rest', rfl, hinner'⟩ := h.exists_closed
  rw [List.append_assoc, List.cons_append] at heq
  obtain ⟨rfl, -⟩ := hinner'.closed_unique hinner heq
  exact ⟨rest', rfl⟩

/-- A call that starts within an item is closed within it. -/
theorem Item.WellCut.call_closed {item : Item} {rest front mid inner back : List Token}
    {name : String} (hcut : item.WellCut rest)
    (hitem : item.tokens = front ++ .identifier name :: mid)
    (hmid : mid ++ rest = .openParen :: (inner ++ .closeParen :: back)) (hinner : Balanced inner) :
    ∃ back', mid = .openParen :: (inner ++ .closeParen :: back') := by
  cases item with
  | token t =>
    -- a name by itself does not stand in front of a pair of parentheses
    obtain ⟨rfl, hfront⟩ := List.append_eq_singleton_iff.1 hitem.symm |>.resolve_right (by simp)
    obtain ⟨rfl, rfl⟩ := List.cons.inj hfront
    exact absurd ⟨name, inner, back, by rw [← hmid]; rfl, hinner⟩ (wellCut_token_iff.1 hcut)
  | call name' inner' =>
    have houter : Balanced (.openParen :: (inner' ++ [.closeParen])) := .group hcut
    cases front with
    | nil =>
      -- the parenthesis of the item itself
      obtain ⟨-, rfl⟩ := List.cons.inj hitem
      rw [List.cons_append] at hmid
      have hsplit : Balanced ([] ++ .openParen :: (inner' ++ [.closeParen])) := houter
      obtain ⟨rest', hrest⟩ := hsplit.closed_within hinner (List.cons.inj hmid).2
      exact ⟨rest', by rw [hrest]⟩
    | cons t front =>
      have htokens : .openParen :: inner' ++ [.closeParen] = front ++ .identifier name :: mid :=
        (List.cons.inj hitem).2
      cases mid with
      | nil =>
        -- the last token of a call is no name
        obtain ⟨-, hlast⟩ := List.append_inj' htokens rfl
        cases hlast
      | cons u mid =>
        obtain ⟨rfl, hmid'⟩ := List.cons.inj hmid
        have hsplit : Balanced ((front ++ [.identifier name]) ++ .openParen :: mid) := by
          rw [List.append_assoc, List.singleton_append, ← htokens]
          exact houter
        obtain ⟨rest', rfl⟩ := hsplit.closed_within hinner hmid'
        exact ⟨rest', rfl⟩

/-- **A call that starts among the tokens that are left is left as a whole.** -/
theorem call_isPrefix_firstItems {cap : Nat} {ts front inner back : List Token} {name : String}
    (hts : ts = front ++ .identifier name :: .openParen :: (inner ++ .closeParen :: back))
    (hinner : Balanced inner) (h : front.length < (firstItems cap ts).length) :
    front ++ .identifier name :: .openParen :: (inner ++ [.closeParen]) <+: firstItems cap ts := by
  induction cap generalizing ts front with
  | zero => exact absurd h (Nat.not_lt_zero _)
  | succ cap ih =>
    cases htake : takeItem ts with
    | none =>
      obtain rfl := takeItem_eq_none htake
      simp at hts
    | some p =>
      obtain ⟨item, rest⟩ := p
      obtain ⟨hitem, hcut⟩ := takeItem_eq_some_iff.1 htake
      have hfirst : firstItems (cap + 1) ts = item.tokens ++ firstItems cap rest := by
        rw [firstItems, items_of_takeItem htake, List.flatMap_cons]
        rfl
      -- the call starts behind the first item or within it
      have hsplit : (∃ mid, front = item.tokens ++ mid ∧
          rest = mid ++ .identifier name :: .openParen :: (inner ++ .closeParen :: back)) ∨
          ∃ mid, item.tokens = front ++ .identifier name :: mid ∧
            mid ++ rest = .openParen :: (inner ++ .closeParen :: back) := by
        have hcases := List.append_eq_append_iff.1 (hitem.symm.trans hts)
        rcases hcases with hbehind | ⟨mid, htokens, hmid⟩
        · exact .inl hbehind
        · cases mid with
          | nil => exact .inl ⟨[], by simpa using htokens.symm, hmid.symm⟩
          | cons t mid =>
            obtain ⟨rfl, hmid'⟩ := List.cons.inj hmid
            exact .inr ⟨mid, htokens, hmid'.symm⟩
      rw [hfirst] at h ⊢
      rcases hsplit with ⟨mid, rfl, hmid⟩ | ⟨mid, htokens, hmid⟩
      · rw [List.append_assoc, List.prefix_append_right_inj]
        exact ih hmid (by simpa using h)
      · obtain ⟨back', rfl⟩ := hcut.call_closed htokens hmid hinner
        rw [htokens]
        exact ⟨back' ++ firstItems cap rest, by simp⟩

/-- **A call that starts among the tokens that are left has the same arguments there.** -/
theorem closing_firstItems {cap place : Nat} {ts : List Token} {name : String}
    (hname : ts[place]? = some (.identifier name)) (hopen : ts[place + 1]? = some .openParen)
    (hplace : place < (firstItems cap ts).length) :
    (closing 0 ((firstItems cap ts).drop (place + 2))).map Prod.fst =
      (closing 0 (ts.drop (place + 2))).map Prod.fst := by
  obtain ⟨more, hmore⟩ := firstItems_isPrefix cap ts
  obtain ⟨hlt, hname⟩ := List.getElem?_eq_some_iff.1 hname
  obtain ⟨hlt', hopen⟩ := List.getElem?_eq_some_iff.1 hopen
  cases hclosing : closing 0 (ts.drop (place + 2)) with
  | some p =>
    obtain ⟨inner, back⟩ := p
    obtain ⟨hback, hinner⟩ := closing_eq_some_iff.1 hclosing
    have hts : ts = ts.take place ++
        .identifier name :: .openParen :: (inner ++ .closeParen :: back) := by
      rw [← hback, ← hopen, ← List.drop_eq_getElem_cons, ← hname, ← List.drop_eq_getElem_cons,
        List.take_append_drop]
    have hfront : (ts.take place).length = place := by
      rw [List.length_take, Nat.min_eq_left hlt.le]
    obtain ⟨rest, hrest⟩ := call_isPrefix_firstItems hts hinner (hfront.symm ▸ hplace)
    have hdrop : (firstItems cap ts).drop (place + 2) = inner ++ .closeParen :: rest := by
      rw [← hrest, List.append_assoc, ← List.drop_drop, List.drop_left' hfront]
      simp
    rw [hdrop, closing_zero_of_balanced hinner]
    rfl
  | none =>
    cases hkept : closing 0 ((firstItems cap ts).drop (place + 2)) with
    | none => rfl
    | some p =>
      -- a parenthesis that is closed among the first tokens is closed among all of them
      obtain ⟨inner, rest⟩ := p
      have hle : place + 2 ≤ (firstItems cap ts).length := by
        by_contra hlt
        rw [List.drop_eq_nil_of_le (by omega)] at hkept
        cases hkept
      rw [← hmore, List.drop_append_of_le_length hle, closing_append hkept more] at hclosing
      cases hclosing

theorem closingPlace_eq (ts : List Token) (place : Nat) : closingPlace ts place =
    ((closing 0 (ts.drop (place + 1))).map Prod.fst).map fun inner => place + 1 + inner.length := by
  rw [closingPlace, Option.map_map]
  rfl

/-- A parenthesis is closed at the place with balanced tokens in front of it. -/
theorem closingPlace_eq_some_iff {ts : List Token} {place closed : Nat} :
    closingPlace ts place = some closed ↔ place < closed ∧ ts[closed]? = some .closeParen ∧
      Balanced ((ts.drop (place + 1)).take (closed - (place + 1))) := by
  constructor
  · intro h
    obtain ⟨⟨inner, rest⟩, hclosing, rfl⟩ := Option.map_eq_some_iff.1 h
    obtain ⟨hdrop, hinner⟩ := closing_eq_some_iff.1 hclosing
    refine ⟨by omega, ?_, ?_⟩
    · rw [← List.getElem?_drop, hdrop]
      simp
    · rwa [hdrop, Nat.add_sub_cancel_left, List.take_left]
  · rintro ⟨hlt, hclosed, hinner⟩
    obtain ⟨k, rfl⟩ : ∃ k, closed = place + 1 + k := Nat.exists_eq_add_of_le hlt
    rw [← List.getElem?_drop] at hclosed
    rw [Nat.add_sub_cancel_left] at hinner
    obtain ⟨hk, hclosed⟩ := List.getElem?_eq_some_iff.1 hclosed
    have hdrop : ts.drop (place + 1) = (ts.drop (place + 1)).take k ++
        .closeParen :: (ts.drop (place + 1)).drop (k + 1) := by
      rw [← hclosed, ← List.drop_eq_getElem_cons, List.take_append_drop]
    rw [closingPlace, hdrop, closing_zero_of_balanced hinner, Option.map_some,
      List.length_take, Nat.min_eq_left hk.le]

/-- **The cap never cuts through a call.** A level has one list of items, and a cap keeps the first
ones of them: all tokens where there are no more items than that, and otherwise the tokens of as
many items as the cap allows, which are the items of what is kept. A call that starts in what is
kept is closed there if it is closed at all, at the same place and with the same tokens between its
parentheses. What is kept is read like the whole level, and a second cut changes nothing. -/
theorem firstItems_cuts_no_call (cap : Nat) (ts : List Token) :
    let kept := firstItems cap ts
    ∃ its, (∀ its', ItemsOf ts its' ↔ its' = its) ∧
      (kept = ts ↔ its.length ≤ cap) ∧
      (kept <+: ts ∧ kept = (its.take cap).flatMap Item.tokens ∧ ItemsOf kept (its.take cap)) ∧
      (∀ place name, ts[place]? = some (.identifier name) → ts[place + 1]? = some .openParen →
        place < kept.length →
          closingPlace kept (place + 1) = closingPlace ts (place + 1) ∧
          (closing 0 (kept.drop (place + 2))).map Prod.fst =
            (closing 0 (ts.drop (place + 2))).map Prod.fst) ∧
      (∀ l depth, l.maxTokens = cap → parseTokens l depth kept = parseTokens l depth ts) ∧
      firstItems cap kept = kept := by
  intro kept
  have hitems : itemsIn kept = (itemsIn ts).take cap :=
    (itemsIn_firstItems cap ts).trans (items_eq_take cap ts)
  have hkept : kept = ((itemsIn ts).take cap).flatMap Item.tokens :=
    congrArg (List.flatMap Item.tokens) (items_eq_take cap ts)
  refine ⟨itemsIn ts, fun its' => itemsOf_iff, ⟨fun heq => ?_, fun hle => ?_⟩,
    ⟨firstItems_isPrefix cap ts, hkept, hitems ▸ itemsOf_itemsIn kept⟩,
    fun place name hname hopen hplace => ?_, ?_, ?_⟩
  · rw [heq, eq_comm, List.take_eq_self_iff] at hitems
    exact hitems
  · rw [hkept, List.take_of_length_le hle, flatMap_tokens_itemsIn]
  · have hsame := closing_firstItems hname hopen hplace
    exact ⟨by rw [closingPlace_eq, closingPlace_eq, hsame], hsame⟩
  · rintro l depth rfl
    rw [parseTokens_eq_run, parseTokens_eq_run, items_firstItems_self]
  · exact congrArg (List.flatMap Item.tokens) (items_firstItems_self cap ts)

/-- A group is cut behind the first call in it, and an unclosed call behind its name. -/
theorem firstItems_cuts_no_call_nested :
    let ts : List Token := [.openParen, .identifier "sum", .openParen, .identifier "km", .comma,
      .identifier "abs", .openParen, .identifier "uren", .closeParen, .closeParen,
      .identifier "max", .openParen, .number 1]
    firstItems 2 ts = ts.take 10 ∧ firstItems 3 ts = ts.take 11 ∧
      closingPlace (firstItems 2 ts) 2 = some 9 ∧ closingPlace (firstItems 2 ts) 6 = some 8 ∧
      closingPlace (firstItems 3 ts) 11 = none := by
  intro ts
  obtain ⟨-, -, -, -, hcalls, -, -⟩ := firstItems_cuts_no_call 2 ts
  obtain ⟨-, -, -, -, hunclosed, -, -⟩ := firstItems_cuts_no_call 3 ts
  refine ⟨by decide +kernel, by decide +kernel, ?_, ?_, ?_⟩
  · exact (hcalls 1 "sum" rfl rfl (by decide +kernel)).1.trans (by decide +kernel)
  · exact (hcalls 5 "abs" rfl rfl (by decide +kernel)).1.trans (by decide +kernel)
  · exact (hunclosed 10 "max" rfl rfl (by decide +kernel)).1.trans (by decide +kernel)

end SheetTemplate.Formula
