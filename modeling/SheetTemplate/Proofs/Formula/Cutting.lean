import SheetTemplate.Proofs.Formula.Lexing
import SheetTemplate.Proofs.Number.Signs
import Mathlib.Data.List.Chain

/-!
# Cutting a text between tokens

Where a text is cut in two between characters that are not drawn together into one token (`Cut`),
the lexer takes the same tokens from the first part as if nothing followed (`takeToken_append`). The
only token that looks further ahead is a minus sign at the end of the first part, which belongs to a
number that follows at once.

A space cuts a text between any two characters. Tokens that were read off some text are therefore
read again off their own texts with spaces between them (`tokensIn_spaced`), where their literals
are finite: a number has a sign of its own only where the lexer reads one (`SignAllowed`).
-/

namespace SheetTemplate.Formula

/-! ### Cutting a text -/

/-- The characters of numbers. -/
def isNumberChar (c : Char) : Bool := c.isDigit || c = '.'

/-- The characters of numbers and names. -/
def isWordChar (c : Char) : Bool := isNameChar c || c = '.'

/-- Characters that are drawn together into one token where they stand next to each other. -/
def joins (a b : Char) : Bool :=
  isWordChar a && isWordChar b || a = '=' && b = '=' || a = '<' && (b = '=' || b = '>') ||
    a = '>' && b = '='

/-- A text is cut between characters that are not drawn together. -/
def Cut (front back : List Char) : Prop :=
  ∀ a ∈ front.getLast?, ∀ b ∈ back.head?, joins a b = false

/-- A text is not cut within a run of characters of one class. -/
def Parts (q : Char → Bool) (front back : List Char) : Prop :=
  ∀ a ∈ front.getLast?, q a = true → ∀ b ∈ back.head?, q b = false

theorem mem_getLast?_of_suffix {front front' : List Char} (h : front' <:+ front) {a : Char}
    (ha : a ∈ front'.getLast?) : a ∈ front.getLast? := by
  obtain ⟨more, rfl⟩ := h
  rw [List.getLast?_append, Option.mem_def.1 ha]
  rfl

theorem Cut.of_suffix {front front' back : List Char} (h : Cut front back)
    (hsuffix : front' <:+ front) : Cut front' back :=
  fun a ha => h a (mem_getLast?_of_suffix hsuffix ha)

theorem Parts.of_suffix {q : Char → Bool} {front front' back : List Char}
    (h : Parts q front back) (hsuffix : front' <:+ front) : Parts q front' back :=
  fun a ha => h a (mem_getLast?_of_suffix hsuffix ha)

theorem isWordChar_of_isNameChar {c : Char} (h : isNameChar c = true) : isWordChar c = true := by
  rw [isWordChar, h, Bool.true_or]

theorem isWordChar_of_isNumberChar {c : Char} (h : isNumberChar c = true) :
    isWordChar c = true := by
  rw [isNumberChar, Bool.or_eq_true] at h
  rcases h with h | h
  · exact isWordChar_of_isNameChar (isNameChar_iff.2 (.inl h))
  · rw [isWordChar, h, Bool.or_true]

/-- Runs of word characters are not cut. -/
theorem Cut.parts {q : Char → Bool} (hq : ∀ c, q c = true → isWordChar c = true)
    {front back : List Char} (h : Cut front back) : Parts q front back := by
  intro a ha hqa b hb
  have hjoins := h a ha b hb
  rw [Bool.eq_false_iff]
  intro hqb
  rw [joins, hq a hqa, hq b hqb] at hjoins
  cases hjoins

/-- Behind a character of a class, what belongs to the class ends where the text is cut. -/
theorem takeWhile_append_of_parts {p q : Char → Bool} (hp : ∀ c, p c = true → q c = true)
    {c : Char} {front back : List Char} (hc : q c = true) (h : Parts q (c :: front) back) :
    (front ++ back).takeWhile p = front.takeWhile p ∧
      (front ++ back).dropWhile p = front.dropWhile p ++ back := by
  induction front generalizing c with
  | nil =>
    cases back with
    | nil => exact ⟨rfl, rfl⟩
    | cons b back =>
      have hb : ¬ p b = true := fun hpb => by
        have hqb := h c rfl hc b rfl
        rw [hp b hpb] at hqb
        cases hqb
      simp [hb]
  | cons d front ih =>
    by_cases hd : p d = true
    · obtain ⟨htake, hdrop⟩ := ih (hp d hd) (h.of_suffix (List.suffix_cons _ _))
      rw [List.cons_append, List.takeWhile_cons_of_pos hd, List.takeWhile_cons_of_pos hd,
        List.dropWhile_cons_of_pos hd, List.dropWhile_cons_of_pos hd, htake, hdrop]
      exact ⟨rfl, rfl⟩
    · simp [hd]

theorem isNumberChar_of_isDigit {c : Char} (h : c.isDigit = true) : isNumberChar c = true := by
  rw [isNumberChar, h, Bool.true_or]

/-- A number starts with a digit or with a point. -/
theorem exists_of_startsNumber {cs : List Char} (h : startsNumber cs = true) :
    ∃ c rest, cs = c :: rest ∧ (c.isDigit = true ∨ c = '.') := by
  cases cs with
  | nil => cases h
  | cons c cs =>
    refine ⟨c, cs, rfl, ?_⟩
    by_contra hc
    obtain ⟨hdigit, hdot⟩ := not_or.1 hc
    rw [startsNumber_eq_false _ (by simpa using hdigit) hdot] at h
    cases h

/-- The same number is taken where the text goes on with no character of it. -/
theorem takeNumber_append {front back : List Char} (hstart : startsNumber front = true)
    (h : Parts isNumberChar front back) :
    takeNumber (front ++ back) = ((takeNumber front).1, (takeNumber front).2 ++ back) := by
  obtain ⟨c, cs, rfl, hc⟩ := exists_of_startsNumber hstart
  have hpoint : isNumberChar '.' = true := rfl
  by_cases hdigit : c.isDigit = true
  · obtain ⟨htake, hdrop⟩ :=
      takeWhile_append_of_parts (p := Char.isDigit) (fun _ => isNumberChar_of_isDigit)
        (isNumberChar_of_isDigit hdigit) h
    have hsuffix : cs.dropWhile Char.isDigit <:+ c :: cs :=
      (List.dropWhile_suffix _).trans (List.suffix_cons _ _)
    unfold takeNumber
    rw [List.cons_append, List.takeWhile_cons_of_pos hdigit, List.takeWhile_cons_of_pos hdigit,
      List.dropWhile_cons_of_pos hdigit, List.dropWhile_cons_of_pos hdigit, htake, hdrop]
    cases hrest : cs.dropWhile Char.isDigit with
    | nil =>
      -- the first part is all digits, so no point follows
      have hall : ∀ d ∈ c :: cs, d.isDigit = true := by
        intro d hd
        rcases List.mem_cons.1 hd with rfl | hd
        · exact hdigit
        · exact List.dropWhile_eq_nil_iff.1 hrest d hd
      obtain ⟨a, ha⟩ : ∃ a, (c :: cs).getLast? = some a :=
        ⟨_, List.getLast?_eq_getLast_of_ne_nil (List.cons_ne_nil _ _)⟩
      have hnot := h a ha (isNumberChar_of_isDigit (hall a (List.mem_of_getLast? ha)))
      rw [List.nil_append]
      split
      · rename_i rest
        cases hnot '.' rfl
      · rfl
    | cons d rest =>
      rw [hrest] at hsuffix
      by_cases hdot : d = '.'
      · subst hdot
        obtain ⟨htake', hdrop'⟩ :=
          takeWhile_append_of_parts (p := Char.isDigit) (fun _ => isNumberChar_of_isDigit) hpoint
            (h.of_suffix hsuffix)
        simp only [List.cons_append, htake', hdrop']
      · rw [List.cons_append]
        split
        · rename_i heq
          exact absurd (List.cons.inj heq).1 hdot
        · rename_i hne
          split
          · rename_i heq
            exact absurd (List.cons.inj heq).1 hdot
          · rfl
  · obtain rfl : c = '.' := hc.resolve_left hdigit
    obtain ⟨htake, hdrop⟩ :=
      takeWhile_append_of_parts (p := Char.isDigit) (fun _ => isNumberChar_of_isDigit) hpoint h
    unfold takeNumber
    rw [List.cons_append, List.takeWhile_cons_of_neg hdigit, List.takeWhile_cons_of_neg hdigit,
      List.dropWhile_cons_of_neg hdigit, List.dropWhile_cons_of_neg hdigit]
    simp only [htake, hdrop]

theorem startsNumber_append {front back : List Char} (hne : front ≠ [])
    (h : Parts isNumberChar front back) : startsNumber (front ++ back) = startsNumber front := by
  cases front with
  | nil => exact absurd rfl hne
  | cons c cs =>
    by_cases hdot : c = '.'
    · subst hdot
      cases cs with
      | nil =>
        cases back with
        | nil => rfl
        | cons b back =>
          have hb := h '.' rfl rfl b rfl
          rw [isNumberChar, Bool.or_eq_false_iff] at hb
          exact hb.1
      | cons d cs => rfl
    · have hdigit : ∀ xs, startsNumber (c :: xs) = c.isDigit := by
        intro xs
        cases hc : c.isDigit with
        | true => exact startsNumber_of_isDigit xs hc
        | false => exact startsNumber_eq_false xs hc hdot
      rw [List.cons_append, hdigit, hdigit]

/-- The same word is taken where the text goes on with no character of it. -/
theorem takeWord_append {front back : List Char} (hne : front ≠ [])
    (h : Parts isWordChar front back) :
    takeWord (front ++ back) = (takeWord front).map fun p => (p.1, p.2 ++ back) := by
  obtain ⟨c, cs, rfl⟩ := List.exists_cons_of_ne_nil hne
  have hnumber : Parts isNumberChar (c :: cs) back := by
    intro a ha hqa b hb
    have hword := h a ha (isWordChar_of_isNumberChar hqa) b hb
    rw [Bool.eq_false_iff] at hword ⊢
    exact fun hqb => hword (isWordChar_of_isNumberChar hqb)
  have hstarts := startsNumber_append hne hnumber
  rw [List.cons_append] at hstarts ⊢
  rw [takeWord, takeWord, hstarts]
  split_ifs with hstart hname
  · have htake := takeNumber_append hstart hnumber
    rw [List.cons_append] at htake
    rw [htake]
    rfl
  · obtain ⟨htake, hdrop⟩ :=
      takeWhile_append_of_parts (p := isNameChar) (q := isWordChar)
        (fun _ => isWordChar_of_isNameChar)
        (isWordChar_of_isNameChar (isNameChar_iff.2 (.inr hname))) h
    rw [htake, hdrop]
    rfl
  · rfl

theorem isWordChar_of_mem_marks {c : Char} (h : c ∈ marks) : isWordChar c = false := by
  have hdot : c ≠ '.' := by
    rintro rfl
    exact absurd h (by decide)
  rw [isWordChar, isNameChar_of_mem_marks h, Bool.false_or, decide_eq_false_iff_not]
  exact hdot

/-- A number without a sign is taken wherever it stands. -/
theorem takeToken_of_startsNumber {cs : List Char} (h : startsNumber cs = true) (signed : Bool) :
    takeToken signed cs = some (.number (takeNumber cs).1, (takeNumber cs).2) := by
  obtain ⟨c, cs, rfl, hc⟩ := exists_of_startsNumber h
  have hmark : c ∉ marks := by
    intro hmem
    have hnumber : isNumberChar c = true := by simpa [isNumberChar] using hc
    have hword := isWordChar_of_isNumberChar hnumber
    rw [isWordChar_of_mem_marks hmem] at hword
    cases hword
  rw [takeToken_of_notMem_marks hmark, takeWord, if_pos h]

/-- A minus sign belongs to the number that follows at once. -/
theorem takeToken_sign {cs : List Char} (h : startsNumber cs = true) :
    takeToken true ('-' :: cs) = some (.number (-(takeNumber cs).1), (takeNumber cs).2) := by
  rw [takeToken, h]
  rfl

theorem takeToken_minus {cs : List Char} (h : startsNumber cs = false) (signed : Bool) :
    takeToken signed ('-' :: cs) = some (.operator .sub, cs) := by
  rw [takeToken, h, Bool.and_false]
  rfl

/-- A comparison takes up a second character only where one follows that it is joined with. -/
theorem takeToken_comparison {signed : Bool} {c d : Char} (hc : c = '=' ∨ c = '<' ∨ c = '>')
    (h : joins c d = false) (cs : List Char) :
    takeToken signed (c :: d :: cs) = (takeToken signed [c]).map fun p => (p.1, d :: cs) := by
  simp only [joins, Bool.or_eq_false_iff, Bool.and_eq_false_iff, decide_eq_false_iff_not] at h
  rcases hc with rfl | rfl | rfl <;> simp_all [takeToken]

/-- **The lexer takes the same token where the text goes on behind a cut.** Only a minus sign at the
end may be drawn together with what follows. -/
theorem takeToken_append {signed : Bool} {front back : List Char} (hne : front ≠ [])
    (h : Cut front back)
    (hminus : front = ['-'] → signed = true → startsNumber back = false) :
    takeToken signed (front ++ back) =
      (takeToken signed front).map fun p => (p.1, p.2 ++ back) := by
  obtain ⟨c, cs, rfl⟩ := List.exists_cons_of_ne_nil hne
  -- the second character that a comparison may take up stands on the same side of the cut
  have hcomparison : c = '=' ∨ c = '<' ∨ c = '>' → takeToken signed (c :: cs ++ back) =
      (takeToken signed (c :: cs)).map fun p => (p.1, p.2 ++ back) := by
    intro hc
    cases cs with
    | nil =>
      cases back with
      | nil => simp
      | cons b back =>
        rw [List.singleton_append, takeToken_comparison hc (h c rfl b rfl)]
        rcases hc with rfl | rfl | rfl <;> rfl
    | cons d cs =>
      cases hd : joins c d with
      | true =>
        have hword : isWordChar c = false := by rcases hc with rfl | rfl | rfl <;> decide
        simp only [joins, hword, Bool.false_and, Bool.false_or, Bool.or_eq_true,
          Bool.and_eq_true, decide_eq_true_eq] at hd
        rcases hd with (⟨rfl, rfl⟩ | ⟨rfl, rfl | rfl⟩) | ⟨rfl, rfl⟩ <;> rfl
      | false =>
        rw [List.cons_append, List.cons_append, takeToken_comparison hc hd,
          takeToken_comparison hc hd, Option.map_map]
        rfl
  by_cases hmark : c ∈ marks
  · simp only [marks, List.mem_cons, List.not_mem_nil, or_false] at hmark
    rcases hmark with rfl | rfl | rfl | rfl | rfl | rfl | rfl | rfl | hc
    case inr.inl =>
      cases cs with
      | nil =>
        cases signed with
        | false => rfl
        | true => exact takeToken_minus (hminus rfl rfl) true
      | cons d cs =>
        have hcut : Parts isNumberChar (d :: cs) back :=
          (h.of_suffix (List.suffix_cons _ _)).parts fun _ => isWordChar_of_isNumberChar
        rw [List.cons_append, takeToken, takeToken, startsNumber_append (List.cons_ne_nil _ _) hcut]
        split_ifs with hsigned
        · rw [Bool.and_eq_true] at hsigned
          rw [takeNumber_append hsigned.2 hcut]
          rfl
        · rfl
    case inr.inr.inr.inr.inr.inr.inr.inr => exact hcomparison hc
    all_goals rfl
  · rw [List.cons_append, takeToken_of_notMem_marks hmark, takeToken_of_notMem_marks hmark,
      ← List.cons_append, takeWord_append hne (h.parts fun _ => id)]

/-! ### Numbers and their signs -/

theorem isSigned_takeNumber (cs : List Char) : Number.isSigned (takeNumber cs).1 = false := by
  unfold takeNumber
  simp only []
  split
  · exact Number.isSigned_ofScientific _ _
  · exact Number.isSigned_ofScientific _ _

/-- A number that is taken is written without a sign, or behind a minus sign where it may have a
sign of its own. -/
theorem takeToken_eq_number {signed : Bool} {cs rest : List Char} {x : Float}
    (h : takeToken signed cs = some (.number x, rest)) :
    startsNumber cs = true ∧ takeNumber cs = (x, rest) ∨
      signed = true ∧ ∃ ds y, cs = '-' :: ds ∧ startsNumber ds = true ∧ takeNumber ds = (y, rest) ∧
        x = -y := by
  unfold takeToken at h
  split at h
  case h_2 ds =>
    split_ifs at h with hsign
    · rw [Bool.and_eq_true] at hsign
      cases h
      exact .inr ⟨hsign.1, ds, _, rfl, hsign.2, rfl, rfl⟩
    · cases h
  case h_16 =>
    cases cs with
    | nil => cases h
    | cons c cs =>
      simp only [takeWord] at h
      split_ifs at h with hnumber hname
      · cases h
        exact .inl ⟨hnumber, rfl⟩
      · cases h
  all_goals cases h

/-- The same number is taken where the text goes on with no character of it. -/
theorem takeToken_append_of_number {signed : Bool} {front back rest : List Char} {x : Float}
    (h : takeToken signed front = some (.number x, rest)) (hparts : Parts isNumberChar front back) :
    takeToken signed (front ++ back) = some (.number x, rest ++ back) := by
  rcases takeToken_eq_number h with ⟨hstart, htake⟩ | ⟨rfl, ds, y, rfl, hstart, htake, rfl⟩
  · have hne : front ≠ [] := by
      rintro rfl
      cases hstart
    have hstart' : startsNumber (front ++ back) = true := by
      rw [startsNumber_append hne hparts, hstart]
    rw [takeToken_of_startsNumber hstart', takeNumber_append hstart hparts, htake]
  · have hparts' := hparts.of_suffix (List.suffix_cons '-' ds)
    have hne : ds ≠ [] := by
      rintro rfl
      cases hstart
    rw [List.cons_append, takeToken, startsNumber_append hne hparts', hstart,
      takeNumber_append hstart hparts', htake]
    rfl

/-- Behind the first token, a number has a sign of its own only where an operand has to follow. -/
def SignAllowed (t u : Token) : Prop :=
  ∀ x, u = .number x → Number.isSigned x = true → t.precedesOperand = true

theorem isSigned_head_tokensOf {cap : Nat} {signed : Bool} {cs : List Char} {x : Float}
    (h : (tokensOf cap signed cs).head? = some (.number x)) (hx : Number.isSigned x = true) :
    signed = true := by
  cases cap with
  | zero => cases h
  | succ cap =>
    cases hnext : nextToken signed cs with
    | none =>
      rw [tokensOf, hnext] at h
      cases h
    | some p =>
      obtain ⟨t, rest⟩ := p
      rw [tokensOf_of_nextToken hnext] at h
      cases h
      obtain ⟨c, cs', -, htake⟩ := exists_takeToken_of_nextToken hnext
      rcases takeToken_eq_number htake with ⟨-, hnumber⟩ | ⟨hsigned, -⟩
      · have hunsigned := isSigned_takeNumber (c :: cs')
        rw [hnumber, hx] at hunsigned
        cases hunsigned
      · exact hsigned

theorem isChain_tokensOf (cap : Nat) (signed : Bool) (cs : List Char) :
    (tokensOf cap signed cs).IsChain SignAllowed := by
  induction cap generalizing signed cs with
  | zero => exact .nil
  | succ cap ih =>
    cases hnext : nextToken signed cs with
    | none => rw [tokensOf, hnext]; exact .nil
    | some p =>
      obtain ⟨t, rest⟩ := p
      rw [tokensOf_of_nextToken hnext]
      refine (ih _ _).cons fun u hu => ?_
      rintro x rfl hx
      exact isSigned_head_tokensOf hu hx

/-! ### The text of one token -/

/-- The token is no infinite literal. -/
def Token.isFinite : Token → Bool
  | number x => !x.isInf
  | _ => true

theorem isFinite_of_isRead {x : Float} (h : IsRead (.number x))
    (hfinite : (Token.number x).isFinite = true) : x.isFinite = true :=
  Number.isFinite_of_not_isNaN_of_not_isInf h (by simpa [Token.isFinite] using hfinite)

/-- The text of a token is lexed as the token, where a number may have the sign that it has. -/
theorem takeToken_self {t : Token} (ht : IsRead t) (hfinite : t.isFinite = true)
    {signed : Bool} (hsign : ∀ x, t = .number x → Number.isSigned x = true → signed = true) :
    takeToken signed t.chars = some (t, []) := by
  cases t with
  | number x =>
    have htake := takeToken_chars (isFinite_of_isRead ht hfinite) ends_nil
    rw [List.append_nil] at htake
    cases hx : Number.isSigned x with
    | true => rw [hsign x rfl hx]; exact htake
    | false =>
      rcases takeToken_eq_number htake with ⟨hstart, htake⟩ | ⟨-, ds, y, -, -, hnumber, rfl⟩
      · rw [Token.chars, takeToken_of_startsNumber hstart, htake]
      · -- a number behind a minus sign has a sign
        have hy : Number.isSigned y = false := by
          have := isSigned_takeNumber ds
          rwa [hnumber] at this
        have hnan : y.isNaN = false := by
          have := isNaN_takeNumber ds
          rwa [hnumber] at this
        rw [Number.isSigned_minus hnan, hy] at hx
        cases hx
  | identifier name =>
    have htake := takeToken_word ht ends_nil signed
    rwa [List.append_nil] at htake
  | operator op => cases op <;> cases signed <;> rfl
  | _ => rfl

theorem Token.chars_ne_nil {t : Token} (ht : IsRead t) (hfinite : t.isFinite = true) :
    t.chars ≠ [] := by
  intro hnil
  have htake := takeToken_self ht hfinite fun _ _ _ => rfl
  rw [hnil] at htake
  cases htake

/-! ### Tokens with spaces between them -/

/-- The text of some tokens, with spaces between them. -/
def spaced (ts : List Token) : List Char := [' '].intercalate (ts.map Token.chars)

/-- Tokens that stand in one text: they are as they are read off a text, their literals are finite,
and a number has a sign of its own only where an operand has to follow. -/
structure StandInText (ts : List Token) : Prop where
  read : AreRead ts
  finite : ∀ t ∈ ts, t.isFinite = true
  signs : ts.IsChain SignAllowed

theorem standInText_tokensIn {signed : Bool} {cs : List Char}
    (hfinite : ∀ t ∈ tokensIn signed cs, t.isFinite = true) : StandInText (tokensIn signed cs) :=
  ⟨fun _ => isRead_of_mem_tokensIn, hfinite, isChain_tokensOf _ _ _⟩

theorem StandInText.of_isInfix {ts us : List Token} (h : StandInText ts) (hpart : us <:+: ts) :
    StandInText us where
  read := h.read.mono hpart.subset
  finite := fun t ht => h.finite t (hpart.subset ht)
  signs := h.signs.infix hpart

theorem cut_space (front cs : List Char) : Cut front (' ' :: cs) := by
  rintro a - b ⟨⟩
  have hword : isWordChar ' ' = false := by decide
  simp [joins, hword]

theorem tokensIn_space (signed : Bool) (cs : List Char) :
    tokensIn signed (' ' :: cs) = tokensIn signed cs :=
  tokensIn_cons_of_none rfl

/-- A token is taken from its text where a space follows. -/
theorem takeToken_space {t : Token} (ht : IsRead t) (hfinite : t.isFinite = true) {signed : Bool}
    (hsign : ∀ x, t = .number x → Number.isSigned x = true → signed = true) (cs : List Char) :
    takeToken signed (t.chars ++ ' ' :: cs) = some (t, ' ' :: cs) := by
  rw [takeToken_append (Token.chars_ne_nil ht hfinite) (cut_space _ _) fun _ _ => rfl,
    takeToken_self ht hfinite hsign]
  rfl

/-- **Tokens with spaces between them are read again.** -/
theorem tokensIn_spaced {ts : List Token} (h : StandInText ts) {signed : Bool}
    (hhead : ∀ x, ts.head? = some (.number x) → Number.isSigned x = true → signed = true) :
    tokensIn signed (spaced ts) = ts := by
  induction ts generalizing signed with
  | nil => rfl
  | cons t ts ih =>
    have hread := h.read t List.mem_cons_self
    have hfinite := h.finite t List.mem_cons_self
    have hsign : ∀ x, t = .number x → Number.isSigned x = true → signed = true := by
      rintro x rfl
      exact hhead x rfl
    cases ts with
    | nil =>
      rw [spaced, List.map_singleton, List.intercalate_singleton,
        tokensIn_of_takeToken (takeToken_self hread hfinite hsign)]
      rfl
    | cons u ts =>
      have hrest : tokensIn t.precedesOperand (spaced (u :: ts)) = u :: ts := by
        refine ih (h.of_isInfix (List.suffix_cons t _).isInfix) ?_
        rintro x ⟨⟩
        exact h.signs.rel x rfl
      rw [spaced, List.map_cons, List.map_cons, List.intercalate_cons_cons, ← List.map_cons,
        List.append_assoc, List.singleton_append,
        tokensIn_of_takeToken (takeToken_space hread hfinite hsign _), tokensIn_space]
      exact congrArg _ hrest

end SheetTemplate.Formula
