import SheetTemplate.Formula.Body
import SheetTemplate.Proofs.Formula.Cutting
import SheetTemplate.Proofs.Formula.Room

/-!
# Tokenizing without a cap

`Lexes` takes tokens from a text until none is left, whatever their number. Every text has one such
list of tokens (`lexes_iff`), and `tokenize` keeps the first ones (`tokenize_eq_take_of_lexes`).

* `tokenize_complete`: a formula that is not too long keeps all of them, where it is parsed and
  where it is exported token by token.
* `tokenize_displayed`: the tokens of a text are read again off their displayed texts with single
  spaces between these.
-/

namespace SheetTemplate.Formula

/-- The tokens that are taken from a text, one after the other, until none is left. -/
inductive Lexes : (signed : Bool) → List Char → List Token → Prop
  | stop {signed : Bool} {cs : List Char} : nextToken signed cs = none → Lexes signed cs []
  | token {signed : Bool} {cs rest : List Char} {t : Token} {ts : List Token} :
      nextToken signed cs = some (t, rest) → Lexes t.precedesOperand rest ts →
      Lexes signed cs (t :: ts)

section

variable {signed : Bool} {cs : List Char} {ts : List Token}

theorem lexes_tokensIn (signed : Bool) (cs : List Char) : Lexes signed cs (tokensIn signed cs) := by
  -- on the length, since every token takes up characters of its own
  induction hn : cs.length using Nat.strongRecOn generalizing signed cs with
  | _ n ih =>
    subst hn
    cases hnext : nextToken signed cs with
    | none =>
      rw [tokensIn_of_nextToken_eq_none hnext]
      exact .stop hnext
    | some p =>
      obtain ⟨t, rest⟩ := p
      rw [tokensIn_of_nextToken hnext]
      exact .token hnext (ih _ (length_lt_of_nextToken hnext) _ rest rfl)

theorem Lexes.eq_tokensIn (h : Lexes signed cs ts) : ts = tokensIn signed cs := by
  induction h with
  | stop hnext => rw [tokensIn_of_nextToken_eq_none hnext]
  | token hnext _ ih => rw [tokensIn_of_nextToken hnext, ih]

/-- **A text has one list of tokens.** -/
theorem lexes_iff : Lexes signed cs ts ↔ ts = tokensIn signed cs := by
  constructor
  · exact Lexes.eq_tokensIn
  · rintro rfl
    exact lexes_tokensIn signed cs

end

/-! ### Caps -/

/-- A cap keeps the first tokens of a text. -/
theorem tokenize_eq_take_of_lexes {cs : List Char} {ts : List Token} (h : Lexes true cs ts)
    (cap : Nat) : tokenize cap cs = ts.take cap := by
  rw [h.eq_tokensIn]
  rcases Nat.le_total cap cs.length with hcap | hcap
  · exact tokensOf_eq_take hcap true cs
  · have hlength := length_tokensIn_le true cs
    rw [List.take_of_length_le (hlength.trans hcap)]
    exact tokensOf_eq_tokensIn hcap true

/-- A formula that has its `=` and is not too long is parsed by all of its tokens. -/
theorem parse_of_lexes {l : Limits} {formula : String} {ts : List Token}
    (hequals : parse l formula ≠ .error .missingEquals)
    (hlength : ∀ length max, parse l formula ≠ .error (.tooLong length max))
    (h : Lexes true formula.toList.tail ts) : tokenize l.maxLength formula.toList.tail = ts ∧
      parse l formula = if ts = [] then .error .empty else parseTokens l 0 ts := by
  obtain ⟨cs, rfl⟩ := exists_eq_formula hequals
  have hfits : cs.length + 1 ≤ l.maxLength := by
    by_contra hlong
    apply hlength (cs.length + 1) l.maxLength
    rw [parse_ofList, parseChars, if_pos (by omega)]
  rw [toList_formula, List.tail_cons] at h ⊢
  obtain rfl := h.eq_tokensIn
  constructor
  · exact tokensOf_eq_tokensIn (by omega) true
  · rw [parse_ofList, parseChars_of_length_lt (by omega)]

/-- A result of the parser is that of all tokens of the formula. -/
theorem parseTokens_of_parse {l : Limits} {formula : String} {r : Except Error Expr}
    (h : parse l formula = r) (hequals : r ≠ .error .missingEquals)
    (hlength : ∀ length max, r ≠ .error (.tooLong length max)) (hempty : r ≠ .error .empty) :
    parseTokens l 0 (tokensIn true formula.toList.tail) = r := by
  subst h
  have hparse := (parse_of_lexes hequals hlength (lexes_tokensIn true formula.toList.tail)).2
  rw [hparse] at hempty ⊢
  split_ifs at hempty ⊢
  · exact absurd rfl hempty
  · rfl

/-- A formula that the parser refuses is exported token by token. -/
theorem body_of_error {l : Limits} {formula : String} {err : Error}
    (h : parse l formula = .error err) (hequals : err ≠ .missingEquals)
    (hlength : ∀ length max, err ≠ .tooLong length max) (hempty : err ≠ .empty)
    (reference : String → String) : body l reference formula =
      String.ofList (tokensBody reference (tokenize l.maxLength formula.toList.tail)) := by
  rw [parse] at h
  rw [body, bodyChars, h]
  cases err with
  | malformed fault => rfl
  | tooDeep max => rfl
  | missingEquals => exact absurd rfl hequals
  | tooLong length max => exact absurd rfl (hlength length max)
  | empty => exact absurd rfl hempty

/-- **The cap of the lexer drops nothing of a formula that is not too long.** A lower cap keeps the
first tokens, and there are never more tokens than characters. So what is parsed of a formula, and
what is exported of one that is no expression, are the tokens that are taken without any cap. -/
theorem tokenize_complete :
    (∀ (cs : List Char) (m n : Nat), m ≤ n → tokenize m cs = (tokenize n cs).take m) ∧
    (∀ (cs : List Char) (n : Nat), (tokenize n cs).length ≤ cs.length) ∧
    ∀ (l : Limits) (formula : String), parse l formula ≠ .error .missingEquals →
      (∀ length max, parse l formula ≠ .error (.tooLong length max)) →
      ∃ ts, Lexes true formula.toList.tail ts ∧ tokenize l.maxLength formula.toList.tail = ts ∧
        (parse l formula = if ts = [] then .error .empty else parseTokens l 0 ts) ∧
        ∀ (reference : String → String) (err : Error), parse l formula = .error err →
          err ≠ .empty → body l reference formula = String.ofList (tokensBody reference ts) := by
  refine ⟨fun cs m n h => tokensOf_eq_take h true cs, fun cs n => length_tokensOf_le n true cs, ?_⟩
  intro l formula hequals hlength
  have hlexes := lexes_tokensIn true formula.toList.tail
  obtain ⟨htokens, hparse⟩ := parse_of_lexes hequals hlength hlexes
  refine ⟨_, hlexes, htokens, hparse, ?_⟩
  intro reference err herr hempty
  rw [body_of_error herr _ _ hempty, htokens]
  · rintro rfl
    exact hequals herr
  · rintro length max rfl
    exact hlength length max herr

/-- A formula that is as long as its limit, and no expression. -/
theorem tokenize_complete_signs :
    let l : Limits := { maxLength := 10 }
    let formula := "=2 -.5*-3)"
    (2 ≤ 3 ∧ parse l formula ≠ .error .missingEquals ∧
      (∀ length max, parse l formula ≠ .error (.tooLong length max)) ∧
      parse l formula = .error (.malformed .unmatchedClose)) ∧
    tokenize 2 formula.toList.tail = (tokenize 3 formula.toList.tail).take 2 ∧
    ∃ ts, Lexes true formula.toList.tail ts ∧ tokenize l.maxLength formula.toList.tail = ts ∧
      parse l formula = (if ts = [] then .error .empty else parseTokens l 0 ts) ∧
      body l id formula = String.ofList (tokensBody id ts) := by
  intro l formula
  have hparse : parse { maxLength := 10 } "=2 -.5*-3)" = .error (.malformed .unmatchedClose) := rfl
  have hequals : parse l formula ≠ .error .missingEquals := by
    rw [hparse]
    exact nofun
  have hlength : ∀ length max, parse l formula ≠ .error (.tooLong length max) := by
    intro length max
    rw [hparse]
    exact nofun
  refine ⟨⟨by decide, hequals, hlength, hparse⟩, tokenize_complete.1 _ 2 3 (by decide), ?_⟩
  obtain ⟨ts, hlexes, htokens, hall, hbody⟩ := tokenize_complete.2.2 l formula hequals hlength
  exact ⟨ts, hlexes, htokens, hall, hbody id _ hparse nofun⟩

/-! ### Displayed tokens -/

/-- The displayed texts of some tokens, with single spaces between them. -/
def displayed (ts : List Token) : String := " ".intercalate (ts.map Token.text)

theorem toList_displayed (ts : List Token) : (displayed ts).toList = spaced ts := by
  have htexts : (ts.map Token.text).map String.toList = ts.map Token.chars := by
    rw [List.map_map]
    apply List.map_congr_left
    intro t _
    exact String.toList_ofList
  rw [displayed, String.toList_intercalate, htexts]
  rfl

/-- Tokens that are kept of a text stand in a text. -/
theorem standInText_tokenize {n : Nat} {cs : List Char}
    (hfinite : ∀ x, .number x ∈ tokenize n cs → x.isFinite = true) :
    StandInText (tokenize n cs) where
  read := fun _ => isRead_of_mem_tokensOf
  finite := by
    intro t ht
    cases t with
    | number x => simp [Token.isFinite, Number.isInf_of_isFinite (hfinite x ht)]
    | _ => rfl
  signs := isChain_tokensOf n true cs

/-- **Tokenizing undoes printing.** The tokens of a text, printed with single spaces between them,
are tokenized as the same tokens: the numbers with their signs, and the operators of two
characters. -/
theorem tokenize_displayed {s : String} {n m : Nat}
    (hfinite : ∀ x, .number x ∈ tokenize n s.toList → x.isFinite = true)
    (hm : (tokenize n s.toList).length ≤ m) :
    tokenize m (displayed (tokenize n s.toList)).toList = tokenize n s.toList := by
  have hstand := standInText_tokenize hfinite
  have hlexes : Lexes true (spaced (tokenize n s.toList)) (tokenize n s.toList) :=
    lexes_iff.2 (tokensIn_spaced hstand fun _ _ _ => rfl).symm
  rw [toList_displayed, tokenize_eq_take_of_lexes hlexes, List.take_of_length_le hm]

/-- A zero with a sign, a number behind an operator of two characters, and a number behind a
difference; other characters are left out. -/
theorem tokenize_displayed_signs :
    let s := "-0 <> a>=-.5 €- 12 -3"
    let ts := tokenize 8 s.toList
    ((∀ x, .number x ∈ ts → x.isFinite = true) ∧ ts.length ≤ 8 ∧
      ts = [.number (-0), .operator .ne, .identifier "a", .operator .ge, .number (-0.5),
        .operator .sub, .number 12, .operator .sub]) ∧
    tokenize 8 (displayed ts).toList = ts := by
  intro s ts
  have hts : ts = [.number (-0), .operator .ne, .identifier "a", .operator .ge, .number (-0.5),
      .operator .sub, .number 12, .operator .sub] := by decide +kernel
  have hfinite : ∀ x, .number x ∈ ts → x.isFinite = true := by
    rw [hts]
    intro x hx
    simp only [List.mem_cons, Token.number.injEq, reduceCtorEq, List.not_mem_nil, or_false,
      false_or] at hx
    rcases hx with rfl | rfl | rfl <;> decide
  have hlength : ts.length ≤ 8 := by rw [hts]; decide
  exact ⟨⟨hfinite, hlength, hts⟩, tokenize_displayed hfinite hlength⟩

end SheetTemplate.Formula
