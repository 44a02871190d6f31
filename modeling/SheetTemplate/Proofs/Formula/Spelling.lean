import SheetTemplate.Formula.Lexer
import SheetTemplate.Proofs.Formula.Parentheses
import SheetTemplate.Proofs.Number.Reading
import SheetTemplate.Proofs.Text.Runs

/-!
# Texts that are lexed token by token

The texts of tokens are written next to each other without blanks, and the lexer takes as much as it
can. `Spells cs ts` says that the text `cs`, where an operand is expected, is lexed as `ts` in front
of everything that does not go on with a word (`Ends`). It holds of numbers and names, and is kept
by groups, signs, operators and calls.
-/

namespace SheetTemplate.Formula

/-- A name that is one word of a formula. -/
def IsWord (name : String) : Prop :=
  ∃ c cs, name.toList = c :: cs ∧ isNameStart c = true ∧ ∀ d ∈ cs, isNameChar d = true

instance : DecidablePred IsWord := fun name =>
  decidable_of_iff ((match name.toList with
    | [] => false
    | c :: cs => isNameStart c && cs.all isNameChar) = true) <| by
    unfold IsWord
    cases name.toList with
    | nil => simp
    | cons c cs => simp

/-- A word in front of the text ends there: neither a character of a name nor a point follows. -/
def Ends (rest : List Char) : Prop := ∀ c ∈ rest.head?, isNameChar c = false ∧ c ≠ '.'

/-- The characters that an operand starts with. -/
def startsOperand (c : Char) : Bool := c.isDigit || isNameStart c || c = '-' || c = '('

/-- The text of an operand is lexed as some tokens. -/
structure Spells (cs : List Char) (ts : List Token) : Prop where
  starts : ∃ c rest, cs = c :: rest ∧ startsOperand c = true
  ne_nil : ts ≠ []
  length_le : ts.length ≤ cs.length
  tokens : ∀ cap rest, Ends rest →
    tokensOf (ts.length + cap) true (cs ++ rest) = ts ++ tokensOf cap false rest

/-! ### One token -/

theorem tokensOf_of_takeToken {signed : Bool} {cs rest : List Char} {t : Token}
    (h : takeToken signed cs = some (t, rest)) (cap : Nat) :
    tokensOf (cap + 1) signed cs = t :: tokensOf cap t.precedesOperand rest := by
  cases cs with
  | nil => cases h
  | cons c cs => rw [tokensOf, nextToken, h, Option.some_or]

/-! ### Characters -/

theorem isDigit_iff {c : Char} : c.isDigit = true ↔ 48 ≤ c.toNat ∧ c.toNat ≤ 57 := by
  simp only [Char.isDigit, Bool.and_eq_true, decide_eq_true_eq, ge_iff_le, UInt32.le_iff_toNat_le]
  rfl

theorem isNameStart_iff {c : Char} : isNameStart c = true ↔
    65 ≤ c.toNat ∧ c.toNat ≤ 90 ∨ 97 ≤ c.toNat ∧ c.toNat ≤ 122 ∨ c = '_' := by
  simp only [isNameStart, Char.isAlpha, Char.isUpper, Char.isLower, Bool.or_eq_true,
    Bool.and_eq_true, decide_eq_true_eq, ge_iff_le, UInt32.le_iff_toNat_le, or_assoc]
  rfl

theorem isNameChar_iff {c : Char} :
    isNameChar c = true ↔ c.isDigit = true ∨ isNameStart c = true := by
  simp only [isNameChar, isNameStart, Char.isAlphanum, Bool.or_eq_true]
  tauto

theorem not_isDigit_of_isNameStart {c : Char} (h : isNameStart c = true) : c.isDigit = false := by
  rw [Bool.eq_false_iff, Ne, isDigit_iff]
  rcases isNameStart_iff.1 h with h | h | rfl
  · omega
  · omega
  · decide

/-- The characters that start a token which is no word. -/
def marks : List Char := ['+', '-', '*', '/', '(', ')', ',', ';', '=', '<', '>']

theorem isNameChar_of_mem_marks {c : Char} (h : c ∈ marks) : isNameChar c = false := by
  revert c
  simp only [marks, List.forall_mem_cons, List.not_mem_nil, false_implies, implies_true, and_true]
  decide

theorem takeToken_of_notMem_marks {c : Char} (h : c ∉ marks) (signed : Bool) (cs : List Char) :
    takeToken signed (c :: cs) = takeWord (c :: cs) := by
  have hne : ∀ d ∈ marks, c ≠ d := by
    rintro d hd rfl
    exact h hd
  unfold takeToken
  split <;> first
    | rfl
    | (rename_i heq; exact absurd (List.cons.inj heq).1 (hne _ (by decide)))

/-- Where a text starts with a digit or a name, a number or a word is taken. -/
theorem takeToken_eq_takeWord (signed : Bool) {c : Char} (cs : List Char)
    (h : isNameChar c = true) : takeToken signed (c :: cs) = takeWord (c :: cs) := by
  refine takeToken_of_notMem_marks (fun hmem => ?_) signed cs
  rw [isNameChar_of_mem_marks hmem] at h
  cases h

theorem takeWhile_of_ends {p : Char → Bool} (hp : ∀ c, p c = true → isNameChar c = true)
    {cs rest : List Char} (hcs : ∀ c ∈ cs, p c = true) (h : Ends rest) :
    (cs ++ rest).takeWhile p = cs ∧ (cs ++ rest).dropWhile p = rest := by
  refine Text.takeWhile_append_of_ends hcs fun c hc => ?_
  have hend := (h c hc).1
  rw [Bool.eq_false_iff] at hend ⊢
  exact fun hpc => hend (hp c hpc)

theorem takeWhile_isDigit_of_ends {cs rest : List Char} (hcs : ∀ c ∈ cs, c.isDigit = true)
    (h : Ends rest) :
    (cs ++ rest).takeWhile Char.isDigit = cs ∧ (cs ++ rest).dropWhile Char.isDigit = rest :=
  takeWhile_of_ends (fun _ hc => isNameChar_iff.2 (.inl hc)) hcs h

/-! ### Numbers -/

/-- A layout written out in full is taken as its number. -/
theorem takeNumber_plain {l : Number.Layout} (hl : l.HasDigits) {rest : List Char}
    (h : Ends rest) : takeNumber (l.plain ++ rest) = (l.toFloat, rest) := by
  have hwhole : ∀ c ∈ l.whole, c.isDigit = true := fun c => Number.Layout.isDigit_of_mem_whole hl
  have hfraction : ∀ c ∈ l.fraction, c.isDigit = true :=
    fun c => Number.Layout.isDigit_of_mem_fraction hl
  unfold takeNumber Number.Layout.plain Number.Layout.toFloat
  by_cases hempty : l.fraction = []
  · obtain ⟨htake, hdrop⟩ := takeWhile_isDigit_of_ends hwhole h
    simp only [hempty, if_true, List.append_nil, htake, hdrop]
    split
    · rename_i rest'
      exact absurd rfl (h '.' rfl).2
    · rfl
  · obtain ⟨htake, hdrop⟩ := takeWhile_isDigit_of_ends hfraction h
    have hwhole' : ∀ cs, (l.whole ++ '.' :: cs).takeWhile Char.isDigit = l.whole ∧
        (l.whole ++ '.' :: cs).dropWhile Char.isDigit = '.' :: cs :=
      fun cs => Text.takeWhile_append_of_ends hwhole (by simp)
    simp only [hempty, if_false, List.append_assoc, List.cons_append, hwhole', htake, hdrop]

/-- A layout starts with a digit. -/
theorem exists_plain_eq_cons {l : Number.Layout} (hl : l.HasDigits) :
    ∃ c cs, l.plain = c :: cs ∧ c.isDigit = true := by
  obtain ⟨c, cs, hcs⟩ := List.exists_cons_of_ne_nil l.whole_ne_nil
  refine ⟨c, _, by rw [Number.Layout.plain, hcs, List.cons_append], ?_⟩
  exact Number.Layout.isDigit_of_mem_whole hl (hcs ▸ List.mem_cons_self)

theorem startsNumber_of_isDigit {c : Char} (cs : List Char) (h : c.isDigit = true) :
    startsNumber (c :: cs) = true := by
  cases cs with
  | nil =>
    unfold startsNumber
    split <;> simp_all
  | cons d cs =>
    unfold startsNumber
    split <;> simp_all

theorem startsNumber_eq_false {c : Char} (cs : List Char) (h : c.isDigit = false) (hdot : c ≠ '.') :
    startsNumber (c :: cs) = false := by
  unfold startsNumber
  split <;> simp_all

/-- The text of a finite float is its sign and the text of its magnitude. -/
theorem chars_of_isFinite {x : Float} (h : x.isFinite = true) :
    Number.chars x = Number.sign x ++ (Number.Layout.shortest .up x.abs).plain := by
  unfold Number.chars
  rw [Number.isNaN_of_isFinite h, Number.isInf_of_isFinite h]
  rfl

/-- A negative number is written as its magnitude behind a minus sign. -/
theorem chars_neg {x : Float} (h : x.isFinite = true) (hs : Number.isSigned x = false) :
    Number.chars (-x) = '-' :: Number.chars x := by
  have hneg : Number.isSigned (-x) = true := by rw [Number.isSigned_neg h, hs]; rfl
  rw [chars_of_isFinite h, chars_of_isFinite (Number.isFinite_neg h), Number.abs_neg h,
    Number.sign, Number.sign, if_pos hneg, hs]
  rfl

/-- Where an operand is expected, the text of a finite float is taken as the float. -/
theorem takeToken_chars {x : Float} (h : x.isFinite = true) {rest : List Char} (hrest : Ends rest) :
    takeToken true (Number.chars x ++ rest) = some (.number x, rest) := by
  have hl := Number.Layout.hasDigits_shortest .up x.abs
  have habs := Number.toFloat_shortest .up (Number.isFinite_abs h) (Number.isSigned_abs h)
  obtain ⟨c, cs, hcs, hc⟩ := exists_plain_eq_cons hl
  have htake := takeNumber_plain hl hrest
  rw [habs, hcs] at htake
  rw [chars_of_isFinite h, hcs, Number.sign]
  cases hs : Number.isSigned x with
  | true =>
    rw [if_pos rfl]
    show takeToken true ('-' :: (c :: cs ++ rest)) = _
    rw [takeToken, List.cons_append, startsNumber_of_isDigit _ hc]
    rw [List.cons_append] at htake
    simp only [Bool.and_self, if_true, htake, Number.neg_abs_of_isSigned h hs]
  | false =>
    show takeToken true (c :: (cs ++ rest)) = _
    rw [List.cons_append] at htake
    rw [takeToken_eq_takeWord _ _ (isNameChar_iff.2 (.inl hc)), takeWord,
      if_pos (startsNumber_of_isDigit _ hc), htake, Number.abs_of_not_isSigned h hs]

/-! ### Words -/

/-- A word does not start like a number. -/
theorem IsWord.exists_cons {name : String} (h : IsWord name) :
    ∃ c cs, name.toList = c :: cs ∧ c.isDigit = false ∧ c ≠ '.' := by
  obtain ⟨c, cs, hcs, hc, -⟩ := h
  refine ⟨c, cs, hcs, not_isDigit_of_isNameStart hc, ?_⟩
  rintro rfl
  exact absurd hc (by decide)

theorem IsWord.isNameChar {name : String} (h : IsWord name) {c : Char} (hc : c ∈ name.toList) :
    isNameChar c = true := by
  obtain ⟨d, cs, hcs, hd, hrest⟩ := h
  rw [hcs] at hc
  rcases List.mem_cons.1 hc with rfl | hc
  · exact isNameChar_iff.2 (.inr hd)
  · exact hrest c hc

theorem takeToken_word {name : String} (h : IsWord name) {rest : List Char} (hrest : Ends rest)
    (signed : Bool) : takeToken signed (name.toList ++ rest) = some (.identifier name, rest) := by
  obtain ⟨c, cs, hcs, hc, hall⟩ := h
  obtain ⟨htake, hdrop⟩ := takeWhile_of_ends (fun _ h => h) hall hrest
  have hnumber : startsNumber (c :: (cs ++ rest)) = false := by
    refine startsNumber_eq_false _ (not_isDigit_of_isNameStart hc) ?_
    rintro rfl
    exact absurd hc (by decide)
  rw [hcs, List.cons_append, takeToken_eq_takeWord _ _ (isNameChar_iff.2 (.inr hc)), takeWord,
    hnumber, if_neg Bool.false_ne_true, if_pos hc, htake, hdrop, ← hcs, String.ofList_toList]

/-! ### Operands -/

theorem Spells.of_takeToken {cs : List Char} {t : Token}
    (hstarts : ∃ c rest, cs = c :: rest ∧ startsOperand c = true) (ht : t.precedesOperand = false)
    (h : ∀ rest, Ends rest → takeToken true (cs ++ rest) = some (t, rest)) : Spells cs [t] where
  starts := hstarts
  ne_nil := List.cons_ne_nil _ _
  length_le := by
    obtain ⟨c, rest, rfl, -⟩ := hstarts
    simp
  tokens := by
    intro cap rest hrest
    rw [List.length_singleton, Nat.add_comm, tokensOf_of_takeToken (h rest hrest), ht]
    rfl

theorem spells_number {x : Float} (h : x.isFinite = true) :
    Spells (Number.chars x) [.number x] := by
  refine .of_takeToken ?_ rfl fun rest => takeToken_chars h
  obtain ⟨c, cs, hcs, hc⟩ :=
    exists_plain_eq_cons (Number.Layout.hasDigits_shortest .up x.abs)
  rw [chars_of_isFinite h, hcs, Number.sign]
  cases Number.isSigned x with
  | true => exact ⟨'-', c :: cs, rfl, rfl⟩
  | false => exact ⟨c, cs, rfl, by simp [startsOperand, hc]⟩

theorem spells_word {name : String} (h : IsWord name) :
    Spells name.toList [.identifier name] := by
  refine .of_takeToken ?_ rfl fun rest hrest => takeToken_word h hrest true
  obtain ⟨c, cs, hcs, hc, -⟩ := h
  exact ⟨c, cs, hcs, by simp [startsOperand, hc]⟩

theorem ends_nil : Ends [] := by
  intro c hc
  cases hc

theorem ends_cons {c : Char} (cs : List Char) (h : isNameChar c = false) (hdot : c ≠ '.') :
    Ends (c :: cs) := by
  rintro d ⟨⟩
  exact ⟨h, hdot⟩

theorem tokensOf_close (cap : Nat) (signed : Bool) (rest : List Char) :
    tokensOf (cap + 1) signed (')' :: rest) = .closeParen :: tokensOf cap false rest :=
  tokensOf_of_takeToken rfl cap

theorem Spells.group {cs : List Char} {ts : List Token} (h : Spells cs ts) :
    Spells ('(' :: (cs ++ [')'])) (.openParen :: (ts ++ [.closeParen])) where
  starts := ⟨_, _, rfl, rfl⟩
  ne_nil := List.cons_ne_nil _ _
  length_le := by
    have := h.length_le
    simp only [List.length_cons, List.length_append, List.length_nil]
    omega
  tokens := by
    intro cap rest _
    have hclose : Ends (')' :: rest) := ends_cons _ (by decide) (by decide)
    have hlength : (Token.openParen :: (ts ++ [.closeParen])).length + cap =
        ts.length + (cap + 1) + 1 := by
      simp only [List.length_cons, List.length_append, List.length_nil]
      omega
    rw [hlength, List.cons_append, List.append_assoc, List.singleton_append,
      tokensOf_of_takeToken (t := .openParen) rfl, Token.precedesOperand, h.tokens _ _ hclose,
      tokensOf_close, List.cons_append, List.append_assoc]
    rfl

/-- A minus sign is an operator where no number follows at once. -/
theorem Spells.minus {c : Char} {cs : List Char} {ts : List Token} (h : Spells (c :: cs) ts)
    (hc : c.isDigit = false) (hdot : c ≠ '.') :
    Spells ('-' :: c :: cs) (.operator .sub :: ts) where
  starts := ⟨_, _, rfl, rfl⟩
  ne_nil := List.cons_ne_nil _ _
  length_le := by
    have := h.length_le
    simp only [List.length_cons] at this ⊢
    omega
  tokens := by
    intro cap rest hrest
    have htake : takeToken true ('-' :: (c :: cs ++ rest)) =
        some (.operator .sub, c :: cs ++ rest) := by
      rw [takeToken, List.cons_append, startsNumber_eq_false _ hc hdot]
      rfl
    rw [List.length_cons, Nat.add_right_comm, List.cons_append, tokensOf_of_takeToken htake,
      Token.precedesOperand, h.tokens _ _ hrest]
    rfl

/-- An operator in front of an operand is not drawn together with it. -/
theorem takeToken_operator (op : Operator) {c : Char} (h : startsOperand c = true)
    (cs : List Char) : takeToken false (op.chars ++ c :: cs) = some (.operator op, c :: cs) := by
  have heq : c ≠ '=' := by
    rintro rfl
    exact absurd h (by decide)
  have hgt : c ≠ '>' := by
    rintro rfl
    exact absurd h (by decide)
  cases op <;> simp [Operator.chars, takeToken, heq, hgt]

theorem ends_operator (op : Operator) (cs : List Char) : Ends (op.chars ++ cs) := by
  cases op <;> exact ends_cons _ (by decide) (by decide)

theorem Spells.binary {cs cs' : List Char} {ts ts' : List Token} (op : Operator)
    (h : Spells cs ts) (h' : Spells cs' ts') :
    Spells (cs ++ op.chars ++ cs') (ts ++ .operator op :: ts') where
  starts := by
    obtain ⟨c, rest, rfl, hc⟩ := h.starts
    exact ⟨c, _, rfl, hc⟩
  ne_nil := List.append_ne_nil_of_right_ne_nil _ (List.cons_ne_nil _ _)
  length_le := by
    have hle := h.length_le
    have hle' := h'.length_le
    have hop : 1 ≤ op.chars.length := by cases op <;> decide
    simp only [List.length_cons, List.length_append]
    omega
  tokens := by
    intro cap rest hrest
    obtain ⟨c, cs', rfl, hc⟩ := h'.starts
    have hlength : (ts ++ .operator op :: ts').length + cap =
        ts.length + (ts'.length + cap + 1) := by
      simp only [List.length_cons, List.length_append]
      omega
    rw [hlength, List.append_assoc, List.append_assoc, h.tokens _ _ (ends_operator _ _),
      List.cons_append, tokensOf_of_takeToken (takeToken_operator op hc _), ← List.cons_append,
      Token.precedesOperand, h'.tokens _ _ hrest, List.append_assoc]
    rfl

/-! ### Calls -/

/-- The text between the parentheses of a call is lexed as some tokens. -/
structure SpellsInner (cs : List Char) (ts : List Token) : Prop where
  length_le : ts.length ≤ cs.length
  tokens : ∀ cap rest, tokensOf (ts.length + (cap + 1)) true (cs ++ ')' :: rest) =
    ts ++ .closeParen :: tokensOf cap false rest

theorem Spells.inner {cs : List Char} {ts : List Token} (h : Spells cs ts) :
    SpellsInner cs ts where
  length_le := h.length_le
  tokens := by
    intro cap rest
    rw [h.tokens _ _ (ends_cons _ (by decide) (by decide)), tokensOf_close]

theorem SpellsInner.cons {cs cs' : List Char} {ts ts' : List Token} (h : Spells cs ts)
    (h' : SpellsInner cs' ts') : SpellsInner (cs ++ ',' :: cs') (ts ++ .comma :: ts') where
  length_le := by
    have hle := h.length_le
    have hle' := h'.length_le
    simp only [List.length_cons, List.length_append]
    omega
  tokens := by
    intro cap rest
    have hcomma : Ends (',' :: (cs' ++ ')' :: rest)) := ends_cons _ (by decide) (by decide)
    have hlength : (ts ++ .comma :: ts').length + (cap + 1) =
        ts.length + (ts'.length + (cap + 1) + 1) := by
      simp only [List.length_cons, List.length_append]
      omega
    rw [hlength, List.append_assoc, List.cons_append, h.tokens _ _ hcomma,
      tokensOf_of_takeToken (t := .comma) rfl, Token.precedesOperand, h'.tokens,
      List.append_assoc, List.cons_append]

theorem spellsInner_nil : SpellsInner [] [] where
  length_le := le_rfl
  tokens := by
    intro cap rest
    rw [List.length_nil, Nat.zero_add, List.nil_append, tokensOf_close, List.nil_append]

/-- Arguments are lexed one by one between their commas. -/
theorem spellsInner_intercalate {css : List (List Char)} {tss : List (List Token)}
    (h : List.Forall₂ Spells css tss) :
    SpellsInner ([','].intercalate css) ([Token.comma].intercalate tss) := by
  induction h with
  | nil => exact spellsInner_nil
  | @cons cs ts css tss hs hrest ih =>
    cases hrest with
    | nil => simpa using hs.inner
    | cons hs' hrest' =>
      rw [List.intercalate_cons_cons, List.intercalate_cons_cons, List.append_assoc,
        List.append_assoc]
      exact .cons hs ih

theorem Spells.call {name : String} (hname : IsWord name) {cs : List Char} {ts : List Token}
    (h : SpellsInner cs ts) : Spells (name.toList ++ '(' :: (cs ++ [')']))
      (.identifier name :: .openParen :: (ts ++ [.closeParen])) where
  starts := by
    obtain ⟨c, rest, hcs, hc⟩ := (spells_word hname).starts
    exact ⟨c, _, by rw [hcs, List.cons_append], hc⟩
  ne_nil := List.cons_ne_nil _ _
  length_le := by
    have hle := h.length_le
    have hname' := (spells_word hname).length_le
    simp only [List.length_cons, List.length_append, List.length_nil] at hname' ⊢
    omega
  tokens := by
    intro cap rest _
    have hopen : Ends ('(' :: (cs ++ [')'] ++ rest)) := ends_cons _ (by decide) (by decide)
    have hlength : (Token.identifier name :: .openParen :: (ts ++ [.closeParen])).length + cap =
        ts.length + (cap + 1) + 1 + 1 := by
      simp only [List.length_cons, List.length_append, List.length_nil]
      omega
    rw [hlength, List.append_assoc, List.cons_append,
      tokensOf_of_takeToken (takeToken_word hname hopen true), List.append_assoc,
      List.singleton_append]
    rw [tokensOf_of_takeToken (t := .openParen) rfl, Token.precedesOperand, h.tokens]
    simp

end SheetTemplate.Formula
