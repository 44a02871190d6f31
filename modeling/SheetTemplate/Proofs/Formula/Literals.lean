import SheetTemplate.Proofs.Formula.TreeTokens

/-!
# Literals of exported formulas

A finite number is written with digits, a point among them where it is no whole number, and a minus
sign where it is negative; this text is read as the one token of the number again
(`isDecimal_chars`, `tokenize_chars`). A literal of a formula is infinite where its digits are too
many, and then it is exported as a word, in which no number is read
(`numbers_tokenize_of_not_isFinite`).

So every literal that a tree keeps of its formula is exported in its place, and as a decimal of its
value unless it is infinite (`literals_exported`); `ExportsLiterals` fails for infinite ones.
-/

namespace SheetTemplate.Formula

/-- Digits, with a point between two of them at most, behind a minus sign or without one. -/
def IsDecimal (cs : List Char) : Prop :=
  ∃ sign whole fraction, cs = sign ++ whole ++ fraction ∧ (sign = [] ∨ sign = ['-']) ∧
    (whole ≠ [] ∧ ∀ c ∈ whole, c.isDigit = true) ∧
    (fraction = [] ∨ ∃ ds, fraction = '.' :: ds ∧ ds ≠ [] ∧ ∀ c ∈ ds, c.isDigit = true)

/-- The number of a token that is one. -/
def Token.number? : Token → Option Float
  | number x => some x
  | _ => none

/-- The numbers among some tokens. -/
def numbers (ts : List Token) : List Float := ts.filterMap Token.number?

namespace Expr

mutual

/-- The literals that a tree is evaluated with. -/
def literals : Expr → List Float
  | number x => [x]
  | identifier _ | invalid _ => []
  | binary _ left right => left.literals ++ right.literals
  | negate operand => operand.literals
  | group inner => inner.literals
  | call _ args => literalsOfAll args

/-- The literals that some trees are evaluated with. -/
def literalsOfAll : List Expr → List Float
  | [] => []
  | e :: es => e.literals ++ literalsOfAll es

end

end Expr

/-- Every literal of a formula is exported as a decimal that is read as the literal. -/
def ExportsLiterals (l : Limits) (p : Placement) (formula : String) : Prop :=
  ∀ e, parse l formula = .ok e → ∀ x ∈ numbers e.tokens,
    ∃ before text after, (body l p.reference formula).toList = before ++ text ++ after ∧
      IsDecimal text ∧ ∀ cap, 1 ≤ cap → tokenize cap text = [.number x]

@[simp] theorem numbers_nil : numbers [] = [] := rfl

@[simp] theorem numbers_cons (t : Token) (ts : List Token) :
    numbers (t :: ts) = t.number?.toList ++ numbers ts := by
  cases t <;> rfl

@[simp] theorem numbers_append (ts us : List Token) :
    numbers (ts ++ us) = numbers ts ++ numbers us :=
  List.filterMap_append

/-! ### The texts of numbers -/

/-- A finite number is written with digits. -/
theorem isDecimal_chars {x : Float} (h : x.isFinite = true) : IsDecimal (Number.chars x) := by
  let layout := Number.Layout.shortest .up x.abs
  have hl : layout.HasDigits := Number.Layout.hasDigits_shortest .up x.abs
  refine ⟨Number.sign x, layout.whole,
    if layout.fraction = [] then [] else '.' :: layout.fraction, ?_, ?_,
    ⟨layout.whole_ne_nil, fun c => Number.Layout.isDigit_of_mem_whole hl⟩, ?_⟩
  · rw [chars_of_isFinite h, Number.Layout.plain, List.append_assoc]
  · unfold Number.sign
    split_ifs
    · exact .inr rfl
    · exact .inl rfl
  · split_ifs with hnil
    · exact .inl rfl
    · exact .inr ⟨_, rfl, hnil, fun c => Number.Layout.isDigit_of_mem_fraction hl⟩

theorem tokensOf_nil (cap : Nat) (signed : Bool) : tokensOf cap signed [] = [] := by
  cases cap <;> rfl

/-- **A finite number is read back from its text.** -/
theorem tokenize_chars {x : Float} (h : x.isFinite = true) {cap : Nat} (hcap : 1 ≤ cap) :
    tokenize cap (Number.chars x) = [.number x] := by
  have htake := takeToken_chars h ends_nil
  rw [List.append_nil] at htake
  obtain ⟨n, rfl⟩ := Nat.exists_eq_add_of_le' hcap
  rw [tokenize, tokensOf_of_takeToken htake, tokensOf_nil]

/-- A number that is neither finite nor undefined is written as a word. -/
theorem chars_of_not_isFinite {x : Float} (hnan : x.isNaN = false) (h : x.isFinite = false) :
    Number.chars x = Number.sign x ++ ['i', 'n', 'f'] := by
  have hinf : x.isInf = true := by
    by_contra hinf
    rw [Number.isFinite_of_not_isNaN_of_not_isInf hnan (Bool.eq_false_iff.2 hinf)] at h
    cases h
  rw [Number.chars, hnan, hinf]
  rfl

/-- No number is read of such a word. -/
theorem numbers_tokenize_of_not_isFinite {x : Float} (hnan : x.isNaN = false)
    (h : x.isFinite = false) (cap : Nat) : numbers (tokenize cap (Number.chars x)) = [] := by
  have hnone : numbers (tokensIn true (Number.chars x)) = [] := by
    rw [chars_of_not_isFinite hnan h, Number.sign]
    split_ifs
    · decide +kernel
    · decide +kernel
  have htake := tokenize_eq_take_of_lexes (lexes_tokensIn true (Number.chars x)) cap
  have hsub := (List.take_sublist cap (tokensIn true (Number.chars x))).filterMap Token.number?
  rw [← htake] at hsub
  exact List.sublist_nil.1 (hnone ▸ hsub)

/-! ### Literals of trees -/

namespace Expr

mutual

/-- A tree is exported with the literals that it is evaluated with, and those of arguments that are
no expressions. -/
theorem literals_sublist : (e : Expr) → e.literals.Sublist (numbers e.tokens)
  | number _ => .refl _
  | identifier _ => .slnil
  | binary _ left right => by
    simpa [literals, tokens, Token.number?] using
      (literals_sublist left).append (literals_sublist right)
  | negate operand => literals_sublist operand
  | group inner => by
    simpa [literals, tokens, Token.number?] using literals_sublist inner
  | call _ args => by
    simpa [literals, tokens, Token.number?] using literalsOfAll_sublist args
  | invalid _ => List.nil_sublist _

theorem literalsOfAll_sublist :
    (es : List Expr) → (literalsOfAll es).Sublist (numbers (argTokens es))
  | [] => .slnil
  | [e] => by simpa [literalsOfAll, argTokens] using literals_sublist e
  | e :: e' :: es => by
    show (e.literals ++ literalsOfAll (e' :: es)).Sublist
      (numbers (e.tokens ++ .comma :: argTokens (e' :: es)))
    simpa [Token.number?] using
      (literals_sublist e).append (literalsOfAll_sublist (e' :: es))

end

end Expr

theorem numbers_eq_tokenwise (ts : List Token) :
    numbers ts = tokenwise (fun t => t.number?.toList) (fun _ => []) ts := by
  induction ts with
  | nil => rfl
  | cons t ts ih =>
    rw [numbers_cons, ih]
    cases t with
    | identifier name => simp [tokenwise, Token.number?]
    | _ => rfl

/-- A tree that is read is exported as its tokens. -/
theorem body_eq_tokensBody {l : Limits} {formula : String} {e : Expr}
    (h : parse l formula = .ok e) (reference : String → String) :
    (body l reference formula).toList = tokensBody reference e.tokens := by
  rw [parse] at h
  rw [body, String.toList_ofList, bodyChars, h]
  show e.body reference = tokensBody reference e.tokens
  rw [e.body_eq_flatMap, e.pieces_eq_tokenPieces, tokensBody_eq_flatMap]

theorem tokensBody_number (reference : String → String) (ts : List Token) (x : Float)
    (us : List Token) : tokensBody reference (ts ++ .number x :: us) =
      tokensBody reference ts ++ Number.chars x ++ tokensBody reference us := by
  have hu : Token.number x ≠ .openParen := nofun
  simp only [tokensBody_eq_flatMap, tokenPieces_append hu, List.flatMap_append, tokenPieces,
    List.flatMap_cons, Piece.chars, Token.chars, List.append_assoc]

/-- **Literals are exported as decimals of their values**, unless they are infinite. A tree keeps
the literals of its formula, in their order, and all of them where no cap cuts them off; those that
it is evaluated with are among them. Each is exported in its place: a finite one as a decimal that
is read as this literal again, an infinite one as a word, in which no number is read. -/
theorem literals_exported {l : Limits} {formula : String} {e : Expr} (p : Placement)
    (h : parse l formula = .ok e) :
    (numbers e.tokens).Sublist (numbers (tokensOfFormula formula)) ∧
    (TokensUnreached l formula → numbers e.tokens = numbers (tokensOfFormula formula)) ∧
    e.literals.Sublist (numbers e.tokens) ∧
    (∀ before x after, e.tokens = before ++ .number x :: after →
      (body l p.reference formula).toList =
        tokensBody p.reference before ++ Number.chars x ++ tokensBody p.reference after ∧
      (x.isFinite = true → IsDecimal (Number.chars x) ∧
        ∀ cap, 1 ≤ cap → tokenize cap (Number.chars x) = [.number x]) ∧
      (x.isFinite = false → ∀ cap, numbers (tokenize cap (Number.chars x)) = [])) ∧
    ((∀ x ∈ numbers e.tokens, x.isFinite = true) → ExportsLiterals l p formula) := by
  have hsub := (readOff_of_parse h).sublist
  have hplace : ∀ before x after, e.tokens = before ++ .number x :: after →
      (body l p.reference formula).toList =
        tokensBody p.reference before ++ Number.chars x ++ tokensBody p.reference after := by
    intro before x after htokens
    rw [body_eq_tokensBody h, htokens, tokensBody_number]
  refine ⟨hsub.filterMap _, fun hcap => ?_, e.literals_sublist, ?_, ?_⟩
  · rw [numbers_eq_tokenwise, numbers_eq_tokenwise]
    exact (hcap.readOff h).tokenwise_eq rfl
  · intro before x after htokens
    refine ⟨hplace before x after htokens, fun hfinite => ?_, fun hinfinite => ?_⟩
    · exact ⟨isDecimal_chars hfinite, fun cap => tokenize_chars hfinite⟩
    · have hmem : Token.number x ∈ tokensOfFormula formula := hsub.subset (by simp [htokens])
      exact numbers_tokenize_of_not_isFinite (isRead_of_mem_tokensIn hmem) hinfinite
  · intro hfinite e' he' x hx
    obtain rfl : e = e' := Except.ok.inj (h.symm.trans he')
    obtain ⟨t, ht, hnumber⟩ := List.mem_filterMap.1 hx
    obtain rfl : t = .number x := by
      cases t with
      | number y => exact congrArg Token.number (Option.some.inj hnumber)
      | _ => cases hnumber
    obtain ⟨before, after, htokens⟩ := List.append_of_mem ht
    exact ⟨_, _, _, hplace before x after htokens, isDecimal_chars (hfinite x hx),
      fun cap => tokenize_chars (hfinite x hx)⟩

/-- Literals with and without digits around the point, also in an argument that is no expression. -/
theorem literals_exported_invalid :
    let formula := "=2*-.50 + max(1. 2; 0.10)"
    ∃ e, parse {} formula = .ok e ∧ TokensUnreached {} formula ∧
      numbers e.tokens = [2, -0.5, 1, 2, 0.1] ∧ e.literals = [2, -0.5, 0.1] ∧
      (∀ x ∈ numbers e.tokens, x.isFinite = true) ∧
      ExportsLiterals {} ⟨.ofColumns [], 7, .empty⟩ formula := by
  intro formula
  have hcap : TokensUnreached {} "=2*-.50 + max(1. 2; 0.10)" :=
    tokensUnreached_of_length_le (by decide +kernel)
  obtain ⟨e, he, hnumbers, hliterals⟩ : ∃ e, parse {} "=2*-.50 + max(1. 2; 0.10)" = .ok e ∧
      numbers e.tokens = [2, -0.5, 1, 2, 0.1] ∧ e.literals = [2, -0.5, 0.1] :=
    ⟨_, rfl, by decide +kernel, by decide +kernel⟩
  have hfinite : ∀ x ∈ numbers e.tokens, x.isFinite = true := by
    rw [hnumbers]
    decide +kernel
  obtain ⟨-, -, -, -, hexports⟩ := literals_exported ⟨.ofColumns [], 7, .empty⟩ he
  exact ⟨e, he, hcap, hnumbers, hliterals, hfinite, hexports hfinite⟩

theorem exists_isDigit_of_isDecimal {cs : List Char} (h : IsDecimal cs) :
    ∃ c ∈ cs, c.isDigit = true := by
  obtain ⟨sign, whole, fraction, rfl, -, ⟨hne, hdigits⟩, -⟩ := h
  obtain ⟨c, whole, rfl⟩ := List.exists_cons_of_ne_nil hne
  exact ⟨c, by simp, hdigits c List.mem_cons_self⟩

/-- A literal with too many digits is exported as a word. -/
theorem not_exportsLiterals_infinite : ¬ ExportsLiterals {} ⟨.ofColumns [], 7, .empty⟩
    ("=" ++ String.ofList ('1' :: List.replicate 309 '0')) := by
  intro h
  have htokens : tokensIn true ('1' :: List.replicate 309 '0') = [.number (1 / 0)] := by
    decide +kernel
  have hlength : ('1' :: List.replicate 309 '0').length < Limits.maxLength {} := by
    rw [List.length_cons, List.length_replicate]
    decide
  have hparse : parse {} ("=" ++ String.ofList ('1' :: List.replicate 309 '0')) =
      .ok (.number (1 / 0)) := by
    rw [parse_eq_ok_iff hlength, htokens]
    rfl
  have hword : Number.chars (1 / 0) = ['i', 'n', 'f'] := by decide +kernel
  obtain ⟨before, text, after, hbody, hdecimal, -⟩ := h _ hparse (1 / 0) List.mem_cons_self
  rw [body_eq_tokensBody hparse] at hbody
  have hinf : Number.chars (1 / 0) ++ [] = before ++ text ++ after := hbody
  rw [hword, List.append_nil] at hinf
  obtain ⟨c, hc, hdigit⟩ := exists_isDigit_of_isDecimal hdecimal
  have hmem : c ∈ ['i', 'n', 'f'] := by
    rw [hinf]
    simp [hc]
  have hletter := List.all_eq_true.1 (rfl : ['i', 'n', 'f'].all (!Char.isDigit ·) = true) c hmem
  rw [hdigit] at hletter
  cases hletter

end SheetTemplate.Formula
