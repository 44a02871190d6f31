import SheetTemplate.Proofs.Formula.Lexing
import SheetTemplate.Proofs.Formula.RoundTrip

/-!
# Limits that leave room

A formula does not reach its limits where higher ones read the same (`Unreached`). The tokens of a
text are at most as many as its characters, and so are the items of its levels and the calls that
are nested in it. Limits that are larger than the text are therefore not reached, and all of them
read alike (`parse_eq_of_exceed`). A formula that does not reach its limits is read as under limits
that are as large as one likes (`Unreached.parse_eq`).
-/

namespace SheetTemplate.Formula

/-! ### All items of a level -/

/-- All items of a level. -/
def itemsIn (ts : List Token) : List Item := items ts.length ts

theorem items_eq_itemsIn {cap : Nat} {ts : List Token} (h : ts.length ≤ cap) :
    items cap ts = itemsIn ts := by
  obtain ⟨more, rfl⟩ := Nat.exists_eq_add_of_le h
  exact items_of_flatMap_eq (firstItems_eq_self le_rfl)

theorem length_lt_of_takeItem {ts rest : List Token} {item : Item}
    (h : takeItem ts = some (item, rest)) : rest.length < ts.length := by
  rw [(takeItem_eq_some_iff.1 h).1, List.length_append]
  cases item <;> simp [Item.tokens]

theorem itemsIn_of_takeItem {ts rest : List Token} {item : Item}
    (h : takeItem ts = some (item, rest)) : itemsIn ts = item :: itemsIn rest := by
  have hlt := length_lt_of_takeItem h
  obtain ⟨n, hn⟩ : ∃ n, ts.length = n + 1 := ⟨ts.length - 1, by omega⟩
  rw [itemsIn, hn, items_of_takeItem h, items_eq_itemsIn (by omega)]

theorem itemsIn_token {t : Token} (ht : ∀ name, t ≠ .identifier name) (ts : List Token) :
    itemsIn (t :: ts) = .token t :: itemsIn ts := by
  refine itemsIn_of_takeItem (takeItem_token ?_)
  cases t with
  | identifier name => exact absurd rfl (ht name)
  | _ => trivial

/-- A name is an item by itself where no parenthesis follows. -/
theorem itemsIn_name {ts : List Token} (h : opens ts = false) (name : String) :
    itemsIn (.identifier name :: ts) = .token (.identifier name) :: itemsIn ts := by
  refine itemsIn_of_takeItem (takeItem_token ?_)
  cases ts with
  | nil => trivial
  | cons t ts =>
    cases t with
    | openParen => cases h
    | _ => trivial

theorem itemsIn_unclosed {ts : List Token} (h : closing 0 ts = none) (name : String) :
    itemsIn (.identifier name :: .openParen :: ts) =
      .token (.identifier name) :: .token .openParen :: itemsIn ts := by
  have hcut : (Item.token (.identifier name)).WellCut (.openParen :: ts) := h
  rw [itemsIn_of_takeItem (takeItem_token hcut), itemsIn_token fun name => Token.noConfusion]

theorem itemsIn_call {ts inner rest : List Token} (h : closing 0 ts = some (inner, rest))
    (name : String) :
    itemsIn (.identifier name :: .openParen :: ts) = .call name inner :: itemsIn rest := by
  refine itemsIn_of_takeItem ?_
  obtain ⟨rfl, hinner⟩ := closing_eq_some_iff.1 h
  exact takeItem_call name hinner rest

theorem opens_append {us : List Token} (h : opens us = false) (ts : List Token) :
    opens (ts ++ us) = opens ts := by
  cases ts with
  | nil => exact h
  | cons t ts => cases t <;> rfl

theorem opensNext_itemsIn (ts : List Token) : Yard.opensNext (itemsIn ts) = opens ts := by
  cases ts with
  | nil => rfl
  | cons t ts =>
    cases t with
    | identifier name =>
      cases htake : takeItem (.identifier name :: ts) with
      | none => cases takeItem_eq_none htake
      | some p =>
        obtain ⟨item, rest⟩ := p
        rw [itemsIn_of_takeItem htake]
        have htokens := (takeItem_eq_some_iff.1 htake).1
        cases item with
        | call name' inner => rfl
        | token t =>
          cases (List.cons.inj htokens).1
          rfl
    | _ => rw [itemsIn_token fun name => Token.noConfusion]; rfl

/-- A call takes up two tokens more than the tokens in front of its closing parenthesis. -/
theorem length_add_lt_of_call_mem {ts inner : List Token} {name : String}
    (h : Item.call name inner ∈ itemsIn ts) : inner.length + 2 < ts.length := by
  have hsub := (isInfix_of_mem_items h).length_le
  simp only [Item.tokens, List.length_cons, List.length_append, List.length_nil] at hsub
  omega

/-! ### Levels -/

theorem Yard.run_congr {call call' : String → List Token → Except Error Expr} {its : List Item}
    (h : ∀ name inner, .call name inner ∈ its → call name inner = call' name inner) (y : Yard) :
    y.run call its = y.run call' its := by
  induction its generalizing y with
  | nil => rfl
  | cons item its ih =>
    have hstep : y.step call (opensNext its) item = y.step call' (opensNext its) item := by
      cases item with
      | call name inner => rw [step, step, h name inner List.mem_cons_self]
      | token t => rfl
    rw [run, run, hstep]
    split
    · rfl
    · exact ih (fun name inner hmem => h name inner (List.mem_cons_of_mem _ hmem)) _

theorem parseArguments_congr {parse parse' : List Token → Except Error Expr}
    {segs : List (List Token)} (h : ∀ s ∈ segs, parse s = parse' s) :
    parseArguments parse segs = parseArguments parse' segs := by
  induction segs with
  | nil => rfl
  | cons s segs ih =>
    rw [parseArguments, parseArguments, parseArgument, parseArgument, h s List.mem_cons_self,
      ih fun s' hs' => h s' (List.mem_cons_of_mem _ hs')]

theorem isInfix_of_mem_splitAtCommas {ts s : List Token} (hts : Balanced ts)
    (h : s ∈ splitAtCommas 0 ts) : s <:+: ts := by
  have hpart := isInfix_intercalate [Token.comma] h
  rwa [(segments_splitAtCommas hts).2] at hpart

/-- The limits leave room for some tokens inside some calls. -/
structure Limits.HasRoom (l : Limits) (depth count : Nat) : Prop where
  tokens : count ≤ l.maxTokens
  depth : depth + count ≤ l.maxDepth

/-- **Limits that leave room do not matter**, and neither do the calls around a level. -/
theorem parseTokens_eq_of_hasRoom {l l' : Limits} {depth depth' : Nat} {ts : List Token}
    (h : l.HasRoom depth ts.length) (h' : l'.HasRoom depth' ts.length) :
    parseTokens l depth ts = parseTokens l' depth' ts := by
  -- on the length, as the arguments of a call are shorter than the level it stands on
  induction hn : ts.length using Nat.strongRecOn generalizing ts depth depth' with
  | _ n ih =>
    subst hn
    rw [parseTokens_eq_run, parseTokens_eq_run, items_eq_itemsIn h.tokens,
      items_eq_itemsIn h'.tokens]
    refine Yard.run_congr (fun name inner hmem => ?_) _
    have hlt := length_add_lt_of_call_mem hmem
    have hinner : Balanced inner := balanced_of_call_mem_items hmem
    have hdepth := h.depth
    have hdepth' := h'.depth
    rw [readCall, readCall, if_pos (by omega), if_pos (by omega), parseCall, parseCall]
    have hargs : ∀ s ∈ splitAtCommas 0 inner,
        parseTokens l (depth + 1) s = parseTokens l' (depth' + 1) s := by
      intro s hs
      have hle := (isInfix_of_mem_splitAtCommas hinner hs).length_le
      have htokens := h.tokens
      have htokens' := h'.tokens
      exact ih _ (by omega) ⟨by omega, by omega⟩ ⟨by omega, by omega⟩ rfl
    split_ifs
    · rfl
    · rw [parseArguments_congr hargs]

theorem parseTokens_eq_ok_iff_derives {l : Limits} {depth : Nat} {ts : List Token} {e : Expr}
    (h : ts.length ≤ l.maxTokens) :
    parseTokens l depth ts = .ok e ↔ Derives l depth .comparison ts e := by
  rw [parseTokens_eq_ok_iff, firstItems_eq_self h]

/-! ### Texts -/

/-- The characters of a formula with some body. -/
theorem toList_formula (cs : List Char) : ("=" ++ String.ofList cs).toList = '=' :: cs := by
  rw [String.toList_append, String.toList_ofList, String.toList_ofList, List.singleton_append]

theorem length_formula (cs : List Char) : ("=" ++ String.ofList cs).length = cs.length + 1 := by
  rw [← String.length_toList, toList_formula, List.length_cons]

theorem exists_eq_formula {l : Limits} {formula : String}
    (h : parse l formula ≠ .error .missingEquals) : ∃ cs, formula = "=" ++ String.ofList cs := by
  cases hcs : formula.toList with
  | nil => exact absurd (by rw [parse, hcs]; rfl) h
  | cons c cs =>
    by_cases hc : c = '='
    · subst hc
      refine ⟨cs, String.toList_injective ?_⟩
      rw [hcs, toList_formula]
    · exact absurd (by rw [parse, hcs]; simp [parseChars, hc]) h

/-- A text that is shorter than the limit is read by all of its tokens. -/
theorem parseChars_of_length_lt {l : Limits} {cs : List Char} (h : cs.length < l.maxLength) :
    parseChars l ('=' :: cs) = if tokensIn true cs = [] then .error .empty
      else parseTokens l 0 (tokensIn true cs) := by
  rw [parseChars, if_neg (by omega), tokenize, tokensOf_eq_tokensIn (Nat.le_of_lt h)]
  cases tokensIn true cs with
  | nil => rfl
  | cons t ts => rfl

theorem parse_eq_ok_iff {l : Limits} {cs : List Char} (h : cs.length < l.maxLength) {e : Expr} :
    parse l ("=" ++ String.ofList cs) = .ok e ↔ parseTokens l 0 (tokensIn true cs) = .ok e := by
  rw [parse_ofList, parseChars_of_length_lt h]
  split_ifs with hnil
  · -- a text without tokens is read neither way
    rw [hnil, parseTokens_eq_run, items_eq_itemsIn (Nat.zero_le _)]
    constructor <;> rintro ⟨⟩
  · rfl

theorem length_tokensIn_le (signed : Bool) (cs : List Char) :
    (tokensIn signed cs).length ≤ cs.length :=
  length_tokensOf_le _ _ _

theorem Limits.Exceed.hasRoom {l : Limits} {n : Nat} (h : l.Exceed n) {ts : List Token}
    (hts : ts.length ≤ n) : l.HasRoom 0 ts.length := by
  have htokens := h.tokens
  have hdepth := h.depth
  exact ⟨by omega, by omega⟩

/-- Limits that are larger than a length. -/
def Limits.above (n : Nat) : Limits := ⟨n + 1, n + 1, n + 1⟩

theorem Limits.hasRoom_above {n depth count : Nat} (h : depth + count ≤ n) :
    (Limits.above n).HasRoom depth count :=
  ⟨(Nat.le_add_left _ _).trans (h.trans (Nat.le_succ n)), h.trans (Nat.le_succ n)⟩

theorem Limits.exceed_above {m n : Nat} (h : m ≤ n) : (Limits.above n).Exceed m :=
  ⟨Nat.lt_succ_of_le h, Nat.lt_succ_of_le h, Nat.lt_succ_of_le h⟩

/-- **Limits that are larger than a formula read alike.** -/
theorem parse_eq_of_exceed {l l' : Limits} {formula : String} (h : l.Exceed formula.length)
    (h' : l'.Exceed formula.length) : parse l formula = parse l' formula := by
  rw [← String.length_toList] at h h'
  rw [parse, parse]
  cases hcs : formula.toList with
  | nil => rfl
  | cons c cs =>
    by_cases hc : c = '='
    · subst hc
      rw [hcs, List.length_cons] at h h'
      have hlength := h.length
      have hlength' := h'.length
      have hle := (length_tokensIn_le true cs).trans (Nat.le_succ _)
      rw [parseChars_of_length_lt (by omega), parseChars_of_length_lt (by omega),
        parseTokens_eq_of_hasRoom (h.hasRoom hle) (h'.hasRoom hle)]
    · simp [parseChars, hc]

/-- No limit is lower. -/
structure Limits.Within (l l' : Limits) : Prop where
  length : l.maxLength ≤ l'.maxLength
  tokens : l.maxTokens ≤ l'.maxTokens
  depth : l.maxDepth ≤ l'.maxDepth

/-- A formula does not reach its limits: higher ones read the same. -/
def Unreached (l : Limits) (formula : String) : Prop :=
  ∀ l', l.Within l' → parse l' formula = parse l formula

/-- Limits larger than the text are not reached. -/
theorem unreached_of_exceed {l : Limits} {formula : String} (h : l.Exceed formula.length) :
    Unreached l formula := by
  intro l' hl'
  refine parse_eq_of_exceed ⟨?_, ?_, ?_⟩ h
  · exact h.length.trans_le hl'.length
  · exact h.tokens.trans_le hl'.tokens
  · exact h.depth.trans_le hl'.depth

namespace Unreached

variable {l l' : Limits} {formula : String}

/-- A formula that does not reach its limits is read as under any limits with room for it. -/
theorem parse_eq (h : Unreached l formula) (hl' : l'.Exceed formula.length) :
    parse l formula = parse l' formula := by
  -- the larger ones of both limits read like either
  let top : Limits := ⟨max l.maxLength l'.maxLength, max l.maxTokens l'.maxTokens,
    max l.maxDepth l'.maxDepth⟩
  have hwithin : l.Within top := ⟨le_max_left _ _, le_max_left _ _, le_max_left _ _⟩
  have htop : top.Exceed formula.length :=
    ⟨lt_max_of_lt_right hl'.length, lt_max_of_lt_right hl'.tokens, lt_max_of_lt_right hl'.depth⟩
  rw [← h top hwithin, parse_eq_of_exceed htop hl']

/-- A formula that does not reach its limits is read by all of its tokens. -/
theorem parse_eq_ok_iff {cs : List Char} {n : Nat} (h : Unreached l ("=" ++ String.ofList cs))
    (hn : cs.length < n) {e : Expr} : parse l ("=" ++ String.ofList cs) = .ok e ↔
      parseTokens (.above n) 0 (tokensIn true cs) = .ok e := by
  rw [h.parse_eq (Limits.exceed_above ((length_formula cs).trans_le hn)),
    Formula.parse_eq_ok_iff (Nat.lt_succ_of_lt hn)]

end Unreached

/-- A formula that is no expression is not cut off where it is exported token by token. -/
theorem tokenize_of_parseChars {l : Limits} {cs : List Char}
    (h : (∃ fault, parseChars l cs = .error (.malformed fault)) ∨
      ∃ max, parseChars l cs = .error (.tooDeep max)) :
    tokenize l.maxLength cs.tail = tokensIn true cs.tail := by
  cases cs with
  | nil => rcases h with ⟨_, h⟩ | ⟨_, h⟩ <;> cases h
  | cons c cs =>
    refine tokensOf_eq_tokensIn ?_ true
    rw [List.tail_cons]
    by_contra hlength
    have herror : parseChars l (c :: cs) = .error .missingEquals ∨
        parseChars l (c :: cs) = .error (.tooLong (cs.length + 1) l.maxLength) := by
      by_cases hc : c = '='
      · subst hc
        exact .inr (by rw [parseChars, if_pos (by omega)])
      · exact .inl (by simp [parseChars, hc])
    rcases h with ⟨_, h⟩ | ⟨_, h⟩ <;> rcases herror with herror | herror <;> rw [h] at herror <;>
      cases herror

end SheetTemplate.Formula
