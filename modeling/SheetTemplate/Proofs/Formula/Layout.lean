import SheetTemplate.Proofs.Formula.Alike

/-!
# Layout

Characters that start no token may stand in any number between two tokens. Where they are put into a
text at a cut, the lexer takes the same tokens, but a minus sign in front of the gap does not belong
to the number behind it any more (`respelled_gap`). The parser reads both lists of tokens alike, and
trees that differ only in where the signs of literals stand have the same values, texts and names
(`layout_irrelevant`).
-/

namespace SheetTemplate.Formula

/-- A character that starts no token and goes on with none. -/
def isIgnorable (c : Char) : Bool := !isWordChar c && !marks.contains c

/-! ### Gaps -/

theorem startsNumber_of_isIgnorable {c : Char} (h : isIgnorable c = true) (cs : List Char) :
    startsNumber (c :: cs) = false := by
  obtain ⟨hword, -⟩ : isWordChar c = false ∧ c ∉ marks := by simpa [isIgnorable] using h
  rw [Bool.eq_false_iff]
  intro hstart
  obtain ⟨d, ds, heq, hd⟩ := exists_of_startsNumber hstart
  obtain ⟨rfl, -⟩ := List.cons.inj heq
  have hnumber : isNumberChar c = true := by simpa [isNumberChar] using hd
  rw [isWordChar_of_isNumberChar hnumber] at hword
  cases hword

theorem takeToken_of_isIgnorable {c : Char} (h : isIgnorable c = true) (signed : Bool)
    (cs : List Char) : takeToken signed (c :: cs) = none := by
  obtain ⟨hword, hmark⟩ : isWordChar c = false ∧ c ∉ marks := by simpa [isIgnorable] using h
  have hstart : ¬ isNameStart c = true := by
    intro hc
    rw [isWordChar_of_isNameChar (isNameChar_iff.2 (.inr hc))] at hword
    cases hword
  rw [takeToken_of_notMem_marks hmark, takeWord, startsNumber_of_isIgnorable h,
    if_neg Bool.false_ne_true, if_neg hstart]

/-- A gap in front of a text is skipped. -/
theorem tokensIn_gap {gap : List Char} (hgap : ∀ c ∈ gap, isIgnorable c = true) (signed : Bool)
    (cs : List Char) : tokensIn signed (gap ++ cs) = tokensIn signed cs := by
  induction gap with
  | nil => rfl
  | cons c gap ih =>
    have hc := takeToken_of_isIgnorable (hgap c List.mem_cons_self) signed (gap ++ cs)
    rw [List.cons_append, tokensIn_cons_of_none hc,
      ih fun d hd => hgap d (List.mem_cons_of_mem _ hd)]

theorem Cut.gap {front back gap : List Char} (h : Cut front back)
    (hgap : ∀ c ∈ gap, isIgnorable c = true) : Cut front (gap ++ back) := by
  cases gap with
  | nil => exact h
  | cons g gap =>
    rintro a - b hb
    cases hb
    obtain ⟨hword, hmark⟩ : isWordChar g = false ∧ g ∉ marks := by
      simpa [isIgnorable] using hgap g List.mem_cons_self
    have heq : g ≠ '=' := by
      rintro rfl
      exact hmark (by decide)
    have hgt : g ≠ '>' := by
      rintro rfl
      exact hmark (by decide)
    simp [joins, hword, heq, hgt]

/-- The style of two layouts: names and plus signs are the same. -/
def Style.layout : Style := ⟨id, false⟩

/-- A minus sign does not belong to a number behind a gap. -/
theorem respelled_sign_gap (back : List Char) {gap : List Char}
    (hgap : ∀ c ∈ gap, isIgnorable c = true) :
    Respelled .layout .operand (tokensIn true ('-' :: back))
      (tokensIn true ('-' :: (gap ++ back))) := by
  cases gap with
  | nil => exact .refl rfl (by decide) _
  | cons g gap =>
    have hnumber : startsNumber (g :: gap ++ back) = false :=
      startsNumber_of_isIgnorable (hgap g List.mem_cons_self) _
    rw [tokensIn_of_takeToken (takeToken_minus hnumber true), tokensIn_gap hgap]
    exact respelled_minus (.refl rfl (by decide) _)

/-- **A gap at a cut changes no token**, up to a minus sign in front of it. -/
theorem respelled_gap {p : Position} (hp : p ≠ .minus) {front back gap : List Char}
    (hcut : Cut front back) (hgap : ∀ c ∈ gap, isIgnorable c = true) :
    Respelled .layout p (tokensIn p.expectsOperand (front ++ back))
      (tokensIn p.expectsOperand (front ++ (gap ++ back))) := by
  -- on the length of the first part, token by token
  induction hn : front.length using Nat.strongRecOn generalizing p front with
  | _ n ih =>
    subst hn
    by_cases hnil : front = []
    · subst hnil
      rw [List.nil_append, List.nil_append, tokensIn_gap hgap]
      exact .refl rfl hp _
    by_cases hsign : front = ['-'] ∧ p.expectsOperand = true ∧ startsNumber back = true
    · obtain ⟨rfl, hexpects, hnumber⟩ := hsign
      cases p with
      | operand => exact respelled_sign_gap back hgap
      | minus => exact absurd rfl hp
      | operator => cases hexpects
    · have hback : front = ['-'] → p.expectsOperand = true → startsNumber back = false := by
        intro hfront hexpects
        exact Bool.eq_false_iff.2 fun hnumber => hsign ⟨hfront, hexpects, hnumber⟩
      have hgapback : front = ['-'] → p.expectsOperand = true →
          startsNumber (gap ++ back) = false := by
        cases gap with
        | nil => exact hback
        | cons g gap => exact fun _ _ => startsNumber_of_isIgnorable (hgap g List.mem_cons_self) _
      have htake := takeToken_append hnil hcut hback
      have htake' := takeToken_append hnil (hcut.gap hgap) hgapback
      obtain ⟨c, cs, rfl⟩ := List.exists_cons_of_ne_nil hnil
      cases hfront : takeToken p.expectsOperand (c :: cs) with
      | none =>
        rw [hfront, Option.map_none, List.cons_append] at htake htake'
        rw [List.cons_append, List.cons_append, tokensIn_cons_of_none htake,
          tokensIn_cons_of_none htake']
        exact ih _ (Nat.lt_succ_self _) hp (hcut.of_suffix (List.suffix_cons _ _)) rfl
      | some r =>
        obtain ⟨t, rest⟩ := r
        rw [hfront, Option.map_some] at htake htake'
        rw [tokensIn_of_takeToken htake, tokensIn_of_takeToken htake',
          ← Position.expectsOperand_after]
        have hsuffix : rest <:+ cs := takeToken_suffix hfront
        have hrest := ih rest.length (Nat.lt_succ_of_le hsuffix.length_le)
          (Position.after_ne_minus t) (hcut.of_suffix (hsuffix.trans (List.suffix_cons _ _))) rfl
        cases t with
        | identifier name => exact .sameName rfl name hp hrest
        | _ => exact .token hp (fun name => Token.noConfusion) hrest

/-! ### What layouts have in common -/

theorem tokensBody_cons {t : Token} (ht : ∀ name, t ≠ .identifier name)
    (reference : String → String) (ts : List Token) :
    tokensBody reference (t :: ts) = t.chars ++ tokensBody reference ts := by
  cases t with
  | identifier name => exact absurd rfl (ht name)
  | _ => rfl

theorem Expr.namesOfAll_eq_flatten (es : List Expr) : namesOfAll es = (es.map names).flatten := by
  induction es with
  | nil => rfl
  | cons e es ih => rw [namesOfAll, ih, List.map_cons, List.flatten_cons]

/-- What the first layout has and the second has not, at a place. -/
def Position.chars : Position → List Char
  | minus => ['-']
  | operand | operator => []

theorem Position.chars_of_ne_minus {p : Position} (hp : p ≠ .minus) : p.chars = [] := by
  cases p <;> first | rfl | exact absurd rfl hp

theorem Respelled.tokensBody_eq {p : Position} {ts us : List Token}
    (h : Respelled .layout p ts us) (reference : String → String) :
    tokensBody reference ts = p.chars ++ tokensBody reference us := by
  induction h with
  | nil hp => rw [Position.chars_of_ne_minus hp, List.nil_append]
  | @name p ts us name hp h ih =>
    have hname : (if opens us then Style.layout.callName name else name) = name := ite_self _
    rw [hname, tokensBody, tokensBody, h.opens_eq, ih, Position.chars_of_ne_minus hp]
    rfl
  | @token p t ts us hp ht h ih =>
    rw [tokensBody_cons ht, tokensBody_cons ht, ih, Position.chars_of_ne_minus hp,
      Position.chars_of_ne_minus (Position.after_ne_minus t)]
    rfl
  | plus hdrops => cases hdrops
  | minus h ih => exact ih
  | @literal x ts us hx h ih =>
    rw [tokensBody_cons fun name => Token.noConfusion,
      tokensBody_cons fun name => Token.noConfusion, Token.chars,
      Number.chars_minus hx.isNaN hx.isSigned, ih]
    rfl

theorem Respelled.tokenNames_eq {p : Position} {ts us : List Token}
    (h : Respelled .layout p ts us) : tokenNames ts = tokenNames us := by
  induction h with
  | nil hp => rfl
  | @name p ts us name hp h ih =>
    have hname : (if opens us then Style.layout.callName name else name) = name := ite_self _
    rw [hname]
    exact congrArg (name :: ·) ih
  | @token p t ts us hp ht h ih =>
    cases t with
    | identifier name => exact absurd rfl (ht name)
    | _ => exact ih
  | plus hdrops => cases hdrops
  | minus h ih => exact ih
  | literal hx h ih => exact ih

/-- Trees of two layouts have the same text and the same names. -/
theorem Alike.body_eq {e e' : Expr} (h : Alike .layout e e') (reference : String → String) :
    e.body reference = e'.body reference := by
  induction h with
  | number _ => rfl
  | identifier _ => rfl
  | binary _ _ ihl ihr => rw [Expr.body, Expr.body, ihl, ihr]
  | negate _ ih => rw [Expr.body, Expr.body, ih]
  | group _ ih => rw [Expr.body, Expr.body, ih]
  | @call args args' name hlength _ ih =>
    rw [Expr.body, Expr.body, Expr.argsBody_eq_intercalate, Expr.argsBody_eq_intercalate,
      map_eq_map_of_zip hlength ih]
    rfl
  | invalid h => exact h.tokensBody_eq reference
  | literal hx => exact Number.chars_minus hx.isNaN hx.isSigned

theorem Alike.names_eq {e e' : Expr} (h : Alike .layout e e') : e.names = e'.names := by
  induction h with
  | number _ => rfl
  | identifier _ => rfl
  | binary _ _ ihl ihr => rw [Expr.names, Expr.names, ihl, ihr]
  | negate _ ih => exact ih
  | group _ ih => exact ih
  | @call args args' name hlength _ ih =>
    rw [Expr.names, Expr.names, Expr.namesOfAll_eq_flatten, Expr.namesOfAll_eq_flatten,
      map_eq_map_of_zip hlength ih]
  | invalid h => exact h.tokenNames_eq
  | literal _ => rfl

theorem ErrorAlike.eq {err err' : Error} (h : ErrorAlike .layout err err') : err = err' := by
  cases h with
  | refl _ => rfl
  | malformed h => cases h <;> rfl

/-! ### Formulas -/

variable {l : Limits} {cs cs' : List Char}

/-- Two layouts of a formula have the same text on a worksheet. -/
theorem body_eq_of_respelled
    (h : Respelled .layout .operand (tokensIn true cs) (tokensIn true cs'))
    (hresult : ResultAlike .layout (Alike .layout) (parse l ("=" ++ String.ofList cs))
      (parse l ("=" ++ String.ofList cs'))) (reference : String → String) :
    body l reference ("=" ++ String.ofList cs) = body l reference ("=" ++ String.ofList cs') := by
  rw [parse, parse, toList_formula, toList_formula] at hresult
  rw [body, body, toList_formula, toList_formula, bodyChars, bodyChars]
  rcases hresult.elim with ⟨err, err', hr, hr', herr⟩ | ⟨_, _, hr, hr', he⟩
  · obtain rfl := herr.eq
    cases err with
    | malformed fault =>
      rw [tokenize_of_parseChars (.inl ⟨_, hr⟩), tokenize_of_parseChars (.inl ⟨_, hr'⟩), hr, hr']
      exact congrArg String.ofList (h.tokensBody_eq reference)
    | tooDeep max =>
      rw [tokenize_of_parseChars (.inr ⟨_, hr⟩), tokenize_of_parseChars (.inr ⟨_, hr'⟩), hr, hr']
      exact congrArg String.ofList (h.tokensBody_eq reference)
    | _ => rw [hr, hr']
  · rw [hr, hr']
    exact congrArg String.ofList (he.body_eq reference)

theorem map_identifiers_eq_of_alike {r r' : Except Error Expr}
    (h : ResultAlike .layout (Alike .layout) r r') :
    r.map Expr.identifiers = r'.map Expr.identifiers := by
  cases h with
  | error herr => rw [herr.eq]
  | ok he => exact congrArg (fun names => Except.ok names.eraseDups) he.names_eq

/-- **Layout is irrelevant.** Characters that start no token may be put into a formula wherever they
do not part a number, a name or a comparison of two characters: under limits that neither text
reaches, the values in all scopes, the texts on all rows of all worksheets, and the names or the
error stay the same. -/
theorem layout_irrelevant {front gap back : List Char} (hcut : Cut front back)
    (hgap : ∀ c ∈ gap, isIgnorable c = true)
    (h : Unreached l ("=" ++ String.ofList (front ++ back)))
    (h' : Unreached l ("=" ++ String.ofList (front ++ (gap ++ back)))) :
    let formula := "=" ++ String.ofList (front ++ back)
    let formula' := "=" ++ String.ofList (front ++ (gap ++ back))
    (∀ s : Scope, evaluate l s formula = evaluate l s formula') ∧
      (∀ p : Placement, body l p.reference formula = body l p.reference formula') ∧
        (parse l formula).map Expr.identifiers = (parse l formula').map Expr.identifiers := by
  have hrespelled : Respelled .layout .operand (tokensIn true (front ++ back))
      (tokensIn true (front ++ (gap ++ back))) := respelled_gap (by decide) hcut hgap
  have hresult := parse_alike hrespelled h h'
  refine ⟨fun s => ?_, fun p => ?_, ?_⟩
  · exact evaluate_eq_of_alike (fun name => congrArg Function.call (id_eq name)) hresult s
  · exact body_eq_of_respelled hrespelled hresult p.reference
  · exact map_identifiers_eq_of_alike hresult

/-- A gap between a minus sign and the number behind it, in an argument that is no expression. -/
theorem layout_irrelevant_sign :
    let front := "a*SUM(b; 2 * -".toList
    let gap := [' ', '$', '\t']
    let back := "3 4)".toList
    let formula := "=" ++ String.ofList (front ++ back)
    let formula' := "=" ++ String.ofList (front ++ (gap ++ back))
    (Cut front back ∧ (∀ c ∈ gap, isIgnorable c = true) ∧ Unreached {} formula ∧
      Unreached {} formula') ∧
    (∀ s : Scope, evaluate {} s formula = evaluate {} s formula') ∧
      (∀ p : Placement, body {} p.reference formula = body {} p.reference formula') ∧
        (parse {} formula).map Expr.identifiers = (parse {} formula').map Expr.identifiers := by
  intro front gap back formula formula'
  have hcut : Cut front back := by
    rintro a ⟨⟩ b ⟨⟩
    decide
  have hgap : ∀ c ∈ gap, isIgnorable c = true := by
    simp only [gap, List.forall_mem_cons, List.not_mem_nil, false_implies, implies_true, and_true]
    decide
  have h : Unreached {} formula := unreached_of_exceed ⟨by decide, by decide, by decide⟩
  have h' : Unreached {} formula' := unreached_of_exceed ⟨by decide, by decide, by decide⟩
  exact ⟨⟨hcut, hgap, h, h'⟩, layout_irrelevant hcut hgap h h'⟩

end SheetTemplate.Formula
