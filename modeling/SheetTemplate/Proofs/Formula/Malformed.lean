import SheetTemplate.Proofs.Formula.Alike
import SheetTemplate.Proofs.Formula.Renaming

/-!
# The worksheet text of a formula that is no expression

A formula that is no expression is exported token by token, and so is an argument that is none. The
texts of two tokens may be drawn together where nothing stands between them: `1 2` is exported as
`12` (`Token.fuses`). Where no two neighbours fuse, the exported text is lexed as a respelling of
the tokens that it was written from, written token by token (`respelled_tokensBody`) or from their
tree (`writes_of_parseTokens`). It then has a fault where the formula has one, and the value of the
formula where it has none (`keepsFaults_of_not_fuses`).
-/

namespace SheetTemplate.Formula

/-- The style of a worksheet: functions are called by their worksheet names, and plus signs in front
of operands are left out of a tree. -/
def Style.worksheet : Style := ⟨Function.exportNameOf, true⟩

theorem call_worksheet (name : String) :
    Function.call (Style.worksheet.callName name) = Function.call name := by
  funext xs
  exact Function.call_exportNameOf name xs

namespace Token

/-- Whether the texts of two tokens are drawn together where they stand next to each other. -/
def fuses : Token → Token → Bool
  | identifier _, identifier _ | identifier _, number _ | number _, number _ => true
  | operator .eq, operator .eq | operator .gt, operator .eq => true
  | operator .lt, operator .eq | operator .lt, operator .gt | operator .lt, operator .ge => true
  | _, _ => false

/-- A token as it is written on a worksheet, where `opens` tells whether an opening parenthesis
follows it. -/
def exported (opens : Bool) : Token → Token
  | identifier name => identifier (if opens then Function.exportNameOf name else name)
  | t => t

/-- The text does not go on with the token. -/
def EndsBefore : Token → List Char → Prop
  | number _, cs => ∀ c ∈ cs.head?, isNumberChar c = false
  | identifier _, cs => Ends cs
  | operator .eq, cs | operator .gt, cs => ∀ c ∈ cs.head?, c ≠ '='
  | operator .lt, cs => ∀ c ∈ cs.head?, c ≠ '=' ∧ c ≠ '>'
  | _, _ => True

theorem fuses_exported (t u : Token) (o o' : Bool) :
    (t.exported o).fuses (u.exported o') = t.fuses u := by
  cases t with
  | operator op => cases op <;> cases u <;> rfl
  | _ => cases u <;> rfl

theorem not_fuses_comma (t : Token) : t.fuses comma = false := by
  cases t with
  | operator op => cases op <;> rfl
  | _ => rfl

theorem not_fuses_closeParen (t : Token) : t.fuses closeParen = false := by
  cases t with
  | operator op => cases op <;> rfl
  | _ => rfl

theorem isRead_exported {t : Token} (h : IsRead t) (o : Bool) : IsRead (t.exported o) := by
  cases t with
  | identifier name =>
    cases o with
    | true => exact isWord_exportNameOf h
    | false => exact h
  | _ => exact h

theorem isFinite_exported (t : Token) (o : Bool) : (t.exported o).isFinite = t.isFinite := by
  cases t <;> rfl

theorem precedesOperand_exported (t : Token) (o : Bool) :
    (t.exported o).precedesOperand = t.precedesOperand := by
  cases t <;> rfl

end Token

theorem tokensBody_id_cons (t : Token) (ts : List Token) :
    tokensBody id (t :: ts) = (t.exported (opens ts)).chars ++ tokensBody id ts := by
  cases t <;> rfl

/-! ### One token -/

/-- A token is lexed again where the text does not go on with it. -/
theorem takeToken_of_endsBefore {t : Token} {signed : Bool} {cs : List Char} (hread : IsRead t)
    (hfinite : t.isFinite = true)
    (hsign : ∀ x, t = .number x → Number.isSigned x = true → signed = true)
    (hminus : t = .operator .sub → signed = true → startsNumber cs = false)
    (h : t.EndsBefore cs) : takeToken signed (t.chars ++ cs) = some (t, cs) := by
  cases t with
  | number x =>
    have htake := takeToken_self hread hfinite hsign
    exact takeToken_append_of_number htake fun _ _ _ => h
  | identifier name => exact takeToken_word hread h signed
  | operator op =>
    cases op with
    | sub =>
      cases signed with
      | true => exact takeToken_minus (hminus rfl rfl) true
      | false => rfl
    | eq | lt | gt =>
      cases cs with
      | nil => rfl
      | cons c cs =>
        have hc := h c rfl
        simp_all [Token.chars, Operator.chars, takeToken]
    | _ => rfl
  | _ => rfl

/-- The text of a number starts with a minus sign or a digit. -/
theorem exists_chars_eq_cons {x : Float} (hfin : x.isFinite = true) :
    ∃ c cs, Number.chars x = c :: cs ∧ (c = '-' ∨ c.isDigit = true) := by
  obtain ⟨c, cs, hcs, hc⟩ := exists_plain_eq_cons (Number.Layout.hasDigits_shortest .up x.abs)
  rw [chars_of_isFinite hfin, hcs, Number.sign]
  cases Number.isSigned x with
  | true => exact ⟨'-', c :: cs, rfl, .inl rfl⟩
  | false => exact ⟨c, cs, rfl, .inr hc⟩

/-- A character that no operator goes on with. -/
theorem endsBefore_operator {op : Operator} {c : Char} (hc : c ≠ '=' ∧ c ≠ '>') (cs : List Char) :
    (Token.operator op).EndsBefore (c :: cs) := by
  cases op with
  | eq | gt =>
    rintro d ⟨⟩
    exact hc.1
  | lt =>
    rintro d ⟨⟩
    exact hc
  | _ => trivial

/-- Tokens that do not fuse may stand next to each other. -/
theorem endsBefore_of_not_fuses {t u : Token} (h : t.fuses u = false) (hread : IsRead u)
    (hfinite : u.isFinite = true) (cs : List Char) : t.EndsBefore (u.chars ++ cs) := by
  -- what matters of the second token is its first character
  cases u with
  | number x =>
    obtain ⟨c, ds, hx, hc⟩ := exists_chars_eq_cons (isFinite_of_isRead hread hfinite)
    rw [Token.chars, hx]
    cases t with
    | number _ => cases h
    | identifier _ => cases h
    | operator op =>
      refine endsBefore_operator ?_ _
      constructor <;> rintro rfl <;> simp at hc
    | _ => trivial
  | identifier name =>
    obtain ⟨c, ds, hname, hc, -⟩ := hread
    rw [Token.chars, hname]
    cases t with
    | number x =>
      rintro d ⟨⟩
      have hdot : c ≠ '.' := by
        rintro rfl
        cases hc
      rw [isNumberChar, not_isDigit_of_isNameStart hc, decide_eq_false hdot]
      rfl
    | identifier _ => cases h
    | operator op =>
      refine endsBefore_operator ?_ _
      constructor <;> rintro rfl <;> cases hc
    | _ => trivial
  | operator op' =>
    cases t with
    | number x => cases op' <;> rintro c ⟨⟩ <;> rfl
    | identifier name => exact ends_operator op' cs
    | operator op =>
      cases op <;> cases op' <;> first
        | trivial
        | (rintro c ⟨⟩; decide)
    | _ => trivial
  | _ =>
    cases t with
    | number x => rintro c ⟨⟩; rfl
    | identifier name => exact ends_cons _ (by decide) (by decide)
    | operator op => exact endsBefore_operator (by decide) _
    | _ => trivial

/-! ### Tokens -/

/-- Tokens that are lexed again where they are written next to each other: they stand in one text,
and no two neighbours fuse. -/
structure Apart (ts : List Token) : Prop extends StandInText ts where
  not_fuses : ts.IsChain fun t u => t.fuses u = false

theorem Apart.of_isInfix {ts us : List Token} (h : Apart ts) (hpart : us <:+: ts) : Apart us where
  toStandInText := h.toStandInText.of_isInfix hpart
  not_fuses := h.not_fuses.infix hpart

/-- The text stops at the end of an argument. -/
def Stops (cs : List Char) : Prop := ∀ c ∈ cs.head?, c = ',' ∨ c = ')'

theorem Stops.endsBefore {cs : List Char} (h : Stops cs) (t : Token) : t.EndsBefore cs := by
  cases cs with
  | nil =>
    cases t with
    | operator op => cases op <;> first | trivial | rintro c ⟨⟩
    | number _ => rintro c ⟨⟩
    | identifier _ => rintro c ⟨⟩
    | _ => trivial
  | cons c cs =>
    rcases h c rfl with rfl | rfl
    · exact endsBefore_of_not_fuses (u := .comma) t.not_fuses_comma trivial rfl cs
    · exact endsBefore_of_not_fuses (u := .closeParen) t.not_fuses_closeParen trivial
        rfl cs

theorem Apart.endsBefore {t : Token} {ts : List Token} (h : Apart (t :: ts)) {rest : List Char}
    (hrest : Stops rest) (o : Bool) : (t.exported o).EndsBefore (tokensBody id ts ++ rest) := by
  cases ts with
  | nil => exact hrest.endsBefore _
  | cons u ts =>
    have hu : u ∈ t :: u :: ts := List.mem_cons_of_mem _ List.mem_cons_self
    rw [tokensBody_id_cons, List.append_assoc]
    refine endsBefore_of_not_fuses ?_ (Token.isRead_exported (h.read u hu) _) ?_ _
    · rw [Token.fuses_exported]
      exact h.not_fuses.rel_head? rfl
    · rw [Token.isFinite_exported]
      exact h.finite u hu

/-- A token is taken from its worksheet text, apart from a minus sign where an operand has to
follow, which may be taken together with the digits behind it. -/
theorem takeToken_exported {t : Token} {o : Bool} {p : Position} (hp : p ≠ .minus)
    (hsub : ¬(t = .operator .sub ∧ p = .operand)) (hread : IsRead t) (hfinite : t.isFinite = true)
    (hsign : ∀ x, t = .number x → Number.isSigned x = true → p.expectsOperand = true)
    {cs : List Char} (h : (t.exported o).EndsBefore cs) :
    takeToken p.expectsOperand ((t.exported o).chars ++ cs) = some (t.exported o, cs) := by
  rw [← Token.isFinite_exported t o] at hfinite
  refine takeToken_of_endsBefore (Token.isRead_exported hread _) hfinite ?_ ?_ h
  · intro x hx
    refine hsign x ?_
    cases t <;> cases hx
    rfl
  · intro hx hexpects
    refine absurd ⟨?_, ?_⟩ hsub
    · cases t <;> cases hx
      rfl
    · cases p with
      | operand => rfl
      | minus => exact absurd rfl hp
      | operator => cases hexpects

/-- **Tokens that are apart are spelled by their worksheet text**, in front of the end of an
argument. -/
theorem respelled_tokensBody {ts : List Token} (hapart : Apart ts) {p : Position} (hp : p ≠ .minus)
    (hhead : ∀ x, ts.head? = some (.number x) → Number.isSigned x = true → p.expectsOperand = true)
    {rest : List Char} {us : List Token} (hrest : Stops rest) (hopens : opens us = false)
    (h : ∀ q : Position, q ≠ .minus →
      Respelled .worksheet q (tokensIn q.expectsOperand rest) us) :
    Respelled .worksheet p (tokensIn p.expectsOperand (tokensBody id ts ++ rest)) (ts ++ us) := by
  induction ts generalizing p with
  | nil => exact h p hp
  | cons t ts ih =>
    have hrec : Respelled .worksheet (.after t)
        (tokensIn t.precedesOperand (tokensBody id ts ++ rest)) (ts ++ us) := by
      rw [← Position.expectsOperand_after]
      refine ih (hapart.of_isInfix (List.suffix_cons _ _).isInfix) (Position.after_ne_minus t) ?_
      intro x hx hsigned
      rw [Position.expectsOperand_after]
      exact hapart.signs.rel_head? hx x rfl hsigned
    rw [tokensBody_id_cons, List.append_assoc]
    by_cases hsub : t = .operator .sub ∧ p = .operand
    · obtain ⟨rfl, rfl⟩ := hsub
      exact respelled_minus hrec
    · have hread := hapart.read t List.mem_cons_self
      have hfinite := hapart.finite t List.mem_cons_self
      have hsign : ∀ x, t = .number x → Number.isSigned x = true → p.expectsOperand = true := by
        rintro x rfl
        exact hhead x rfl
      rw [tokensIn_of_takeToken (takeToken_exported hp hsub hread hfinite hsign
        (hapart.endsBefore hrest _)), Token.precedesOperand_exported]
      cases t with
      | identifier name =>
        have hname := Respelled.name name hp hrec
        rw [opens_append hopens] at hname
        exact hname
      | _ => exact .token hp (fun name => Token.noConfusion) hrec

/-! ### Trees -/

/-- The text of an operand is a respelling of some tokens. -/
structure Writes (cs : List Char) (ts : List Token) : Prop where
  starts : ∃ c rest, cs = c :: rest ∧ startsOperand c = true
  startsItem : ∀ {rest : List Char}, Ends rest → startsItem (tokensIn true (cs ++ rest)) = true
  respelled : ∀ {rest : List Char} {us : List Token}, Ends rest → opens us = false →
    Respelled .worksheet .operator (tokensIn false rest) us →
    Respelled .worksheet .operand (tokensIn true (cs ++ rest)) (ts ++ us)

/-- The text of an argument is a respelling of some tokens. -/
def WritesArgument (cs : List Char) (ts : List Token) : Prop :=
  ∀ (rest : List Char) (us : List Token), Stops rest → opens us = false →
    (∀ q : Position, q ≠ .minus → Respelled .worksheet q (tokensIn q.expectsOperand rest) us) →
    Respelled .worksheet .operand (tokensIn true (cs ++ rest)) (ts ++ us)

namespace Writes

theorem argument {cs : List Char} {ts : List Token} (h : Writes cs ts) : WritesArgument cs ts := by
  intro rest us hrest hopens hus
  refine h.respelled ?_ hopens (hus .operator (by decide))
  exact hrest.endsBefore (.identifier "")

theorem number {x : Float} (h : x.isFinite = true) : Writes (Number.chars x) [.number x] where
  starts := (spells_number h).starts
  startsItem := by
    intro rest hrest
    rw [tokensIn_of_takeToken (takeToken_chars h hrest)]
    rfl
  respelled := by
    intro rest us hrest _ hus
    rw [tokensIn_of_takeToken (takeToken_chars h hrest)]
    exact .token (by decide) (fun name => Token.noConfusion) hus

theorem identifier {name : String} (h : IsWord name) :
    Writes name.toList [.identifier name] where
  starts := (spells_word h).starts
  startsItem := by
    intro rest hrest
    rw [tokensIn_of_takeToken (takeToken_word h hrest true)]
    rfl
  respelled := by
    intro rest us hrest hopens hus
    rw [tokensIn_of_takeToken (takeToken_word h hrest true)]
    have hname := Respelled.name (p := .operand) name (by decide) hus
    rwa [hopens] at hname

theorem group {cs : List Char} {ts : List Token} (h : Writes cs ts) :
    Writes ('(' :: (cs ++ [')'])) (.openParen :: (ts ++ [.closeParen])) where
  starts := ⟨_, _, rfl, rfl⟩
  startsItem := by
    intro rest _
    rw [List.cons_append, tokensIn_of_takeToken (t := .openParen) rfl]
    rfl
  respelled := by
    intro rest us _ _ hus
    have hclose : Respelled .worksheet .operator (tokensIn false (')' :: rest))
        (.closeParen :: us) := by
      rw [tokensIn_of_takeToken (t := .closeParen) rfl]
      exact .token (by decide) (fun name => Token.noConfusion) hus
    have hinner := h.respelled (ends_cons rest (by decide) (by decide)) rfl hclose
    rw [List.cons_append, List.append_assoc, List.singleton_append,
      tokensIn_of_takeToken (t := .openParen) rfl, List.cons_append, List.append_assoc,
      List.singleton_append]
    exact .token (by decide) (fun name => Token.noConfusion) hinner

theorem minus {cs : List Char} {ts : List Token} (h : Writes cs ts) :
    Writes ('-' :: cs) (.operator .sub :: ts) where
  starts := ⟨_, _, rfl, rfl⟩
  startsItem := by
    intro rest _
    cases hnumber : startsNumber (cs ++ rest) with
    | true =>
      rw [List.cons_append, tokensIn_of_takeToken (takeToken_sign hnumber)]
      rfl
    | false =>
      rw [List.cons_append, tokensIn_of_takeToken (takeToken_minus hnumber true)]
      rfl
  respelled := by
    intro rest us hrest hopens hus
    exact respelled_minus (h.respelled hrest hopens hus)

theorem plus {cs : List Char} {ts : List Token} (h : Writes cs ts) :
    Writes cs (.operator .add :: ts) where
  starts := h.starts
  startsItem := h.startsItem
  respelled := by
    intro rest us hrest hopens hus
    exact .plus rfl (by decide) (h.startsItem hrest) (h.respelled hrest hopens hus)

theorem binary {cs cs' : List Char} {ts ts' : List Token} (op : Operator) (h : Writes cs ts)
    (h' : Writes cs' ts') : Writes (cs ++ op.chars ++ cs') (ts ++ .operator op :: ts') where
  starts := by
    obtain ⟨c, rest, rfl, hc⟩ := h.starts
    exact ⟨c, _, rfl, hc⟩
  startsItem := by
    intro rest _
    rw [List.append_assoc, List.append_assoc]
    exact h.startsItem (ends_operator _ _)
  respelled := by
    intro rest us hrest hopens hus
    have hright := h'.respelled hrest hopens hus
    obtain ⟨c, cs', rfl, hc⟩ := h'.starts
    have hop : Respelled .worksheet .operator (tokensIn false (op.chars ++ (c :: cs' ++ rest)))
        (.operator op :: (ts' ++ us)) := by
      rw [List.cons_append, tokensIn_of_takeToken (takeToken_operator op hc _), ← List.cons_append]
      exact .token (by decide) (fun name => Token.noConfusion) hright
    rw [List.append_assoc, List.append_assoc, List.append_assoc, List.cons_append]
    exact h.respelled (ends_operator _ _) rfl hop

theorem call {name : String} (hname : IsWord name) {cs : List Char} {ts : List Token}
    (h : ∀ {rest : List Char} {us : List Token},
      Respelled .worksheet .operator (tokensIn false rest) us →
      Respelled .worksheet .operand (tokensIn true (cs ++ ')' :: rest)) (ts ++ .closeParen :: us)) :
    Writes ((Function.exportNameOf name).toList ++ '(' :: (cs ++ [')']))
      (.identifier name :: .openParen :: (ts ++ [.closeParen])) where
  starts := by
    obtain ⟨c, rest, hcs, hc⟩ := (spells_word (isWord_exportNameOf hname)).starts
    exact ⟨c, _, by rw [hcs, List.cons_append], hc⟩
  startsItem := by
    intro rest _
    rw [List.append_assoc, List.cons_append, tokensIn_of_takeToken
      (takeToken_word (isWord_exportNameOf hname) (ends_cons _ (by decide) (by decide)) true)]
    rfl
  respelled := by
    intro rest us _ _ hus
    have hopen : Respelled .worksheet .operator (tokensIn false ('(' :: (cs ++ ')' :: rest)))
        (.openParen :: (ts ++ .closeParen :: us)) := by
      rw [tokensIn_of_takeToken (t := .openParen) rfl]
      exact .token (by decide) (fun name => Token.noConfusion) (h hus)
    have hcall := Respelled.name (p := .operand) name (by decide) hopen
    rw [List.append_assoc, List.cons_append, List.append_assoc, List.singleton_append,
      tokensIn_of_takeToken
        (takeToken_word (isWord_exportNameOf hname) (ends_cons _ (by decide) (by decide)) true),
      List.cons_append, List.cons_append, List.append_assoc, List.singleton_append]
    exact hcall

end Writes

/-- A mark behind an argument is lexed as a token. -/
theorem WritesArgument.before {cs rest : List Char} {ts us : List Token} (h : WritesArgument cs ts)
    {c : Char} {t : Token} (hc : c = ',' ∧ t = .comma ∨ c = ')' ∧ t = .closeParen)
    (hus : Respelled .worksheet (.after t) (tokensIn t.precedesOperand rest) us) :
    Respelled .worksheet .operand (tokensIn true (cs ++ c :: rest)) (ts ++ t :: us) := by
  have htake : ∀ signed, takeToken signed (c :: rest) = some (t, rest) := by
    rcases hc with ⟨rfl, rfl⟩ | ⟨rfl, rfl⟩ <;> exact fun _ => rfl
  refine h _ _ (fun d hd => ?_) ?_ fun q hq => ?_
  · cases hd
    exact hc.imp And.left And.left
  · rcases hc with ⟨-, rfl⟩ | ⟨-, rfl⟩ <;> rfl
  · rw [tokensIn_of_takeToken (htake _)]
    refine .token hq ?_ hus
    rcases hc with ⟨-, rfl⟩ | ⟨-, rfl⟩ <;> exact fun name => Token.noConfusion

/-- Arguments are written one by one between their commas. -/
theorem respelled_intercalate {css : List (List Char)} {tss : List (List Token)}
    (h : List.Forall₂ WritesArgument css tss) (hne : tss ≠ []) {rest : List Char} {us : List Token}
    (hus : Respelled .worksheet .operator (tokensIn false rest) us) :
    Respelled .worksheet .operand (tokensIn true ([','].intercalate css ++ ')' :: rest))
      ([Token.comma].intercalate tss ++ .closeParen :: us) := by
  induction h with
  | nil => exact absurd rfl hne
  | @cons cs ts css tss hs hrest ih =>
    cases hrest with
    | nil =>
      rw [List.intercalate_singleton, List.intercalate_singleton]
      exact hs.before (.inr ⟨rfl, rfl⟩) hus
    | cons hs' hrest' =>
      rw [List.intercalate_cons_cons, List.intercalate_cons_cons, List.append_assoc,
        List.append_assoc, List.append_assoc, List.append_assoc]
      exact hs.before (.inl ⟨rfl, rfl⟩) (ih (List.cons_ne_nil _ _))

variable {l : Limits}

/-- The text of a level is a respelling of its tokens where the texts of its arguments are. -/
theorem writes_of_derives {depth : Nat} {t : Tier} {ts : List Token} {e : Expr}
    (hargs : ∀ seg arg, depth + 1 ≤ l.maxDepth → ArgumentTree l (depth + 1) seg arg → Apart seg →
      seg.length ≤ l.maxTokens → WritesArgument (arg.body id) seg)
    (h : Derives l depth t ts e) (hapart : Apart ts) (hlength : ts.length ≤ l.maxTokens) :
    Writes (e.body id) ts := by
  induction h with
  | number x =>
    have hx := List.mem_singleton_self (Token.number x)
    exact .number (isFinite_of_isRead (hapart.read _ hx) (hapart.finite _ hx))
  | identifier name => exact .identifier (hapart.read _ (List.mem_singleton_self _))
  | @group ts e _ ih =>
    have hpart : ts <:+: .openParen :: (ts ++ [.closeParen]) := ⟨[.openParen], [.closeParen], rfl⟩
    exact (ih (hapart.of_isInfix hpart) (hpart.length_le.trans hlength)).group
  | @call name inner args hdepth hinner =>
    have hpart : inner <:+: .identifier name :: .openParen :: (inner ++ [.closeParen]) :=
      ⟨[.identifier name, .openParen], [.closeParen], rfl⟩
    have hword : IsWord name := hapart.read _ List.mem_cons_self
    have hinside : ∀ {rest us}, Respelled .worksheet .operator (tokensIn false rest) us →
        Respelled .worksheet .operand (tokensIn true (Expr.argsBody id args ++ ')' :: rest))
          (inner ++ .closeParen :: us) := by
      intro rest us hus
      cases hinner with
      | none =>
        rw [Expr.argsBody, List.nil_append, tokensIn_of_takeToken (t := .closeParen) rfl]
        exact .token (by decide) (fun name => Token.noConfusion) hus
      | @some segs args hne _ _ hall =>
        rw [Expr.argsBody_eq_intercalate]
        refine respelled_intercalate ?_ hne hus
        rw [List.forall₂_map_left_iff]
        refine List.forall₂_iff_zip.2 ⟨hall.length_eq.symm, fun {arg seg} hmem => ?_⟩
        have hseg := (isInfix_intercalate [Token.comma] (List.of_mem_zip hmem).2).trans hpart
        exact hargs seg arg hdepth (List.forall₂_zip hall.flip hmem) (hapart.of_isInfix hseg)
          (hseg.length_le.trans hlength)
    have hcall := Writes.call hword hinside
    rwa [← List.cons_append, ← List.append_assoc] at hcall
  | @minus ts e _ ih =>
    have hsuffix := List.suffix_cons (Token.operator .sub) ts
    exact (ih (hapart.of_isInfix hsuffix.isInfix) (hsuffix.length_le.trans hlength)).minus
  | @plus ts e _ ih =>
    have hsuffix := List.suffix_cons (Token.operator .add) ts
    exact (ih (hapart.of_isInfix hsuffix.isInfix) (hsuffix.length_le.trans hlength)).plus
  | @binary t op ts us left right _ _ _ ihl ihr =>
    have hleft := (List.prefix_append ts (.operator op :: us)).isInfix
    have hright : us <:+: ts ++ .operator op :: us :=
      ((List.suffix_cons _ us).trans (List.suffix_append _ _)).isInfix
    exact (ihl (hapart.of_isInfix hleft) (hleft.length_le.trans hlength)).binary op
      (ihr (hapart.of_isInfix hright) (hright.length_le.trans hlength))
  | lift _ ih => exact ih hapart hlength

/-- **The text of a tree is a respelling of the tokens that it was read from.** -/
theorem writes_of_parseTokens {depth : Nat} {ts : List Token} {e : Expr}
    (h : parseTokens l depth ts = .ok e) (hapart : Apart ts) (hlength : ts.length ≤ l.maxTokens) :
    Writes (e.body id) ts := by
  -- the levels inside calls are nested less deeply below the limit
  induction hn : l.maxDepth - depth generalizing depth ts e with
  | zero =>
    have hder := (parseTokens_eq_ok_iff_derives hlength).1 h
    refine writes_of_derives (fun seg arg hdepth => ?_) hder hapart hlength
    omega
  | succ n ih =>
    have hder := (parseTokens_eq_ok_iff_derives hlength).1 h
    refine writes_of_derives (fun seg arg hdepth harg hseg hle => ?_) hder hapart hlength
    cases harg with
    | tree hparse => exact (ih hparse hseg hle (by omega)).argument
    | invalid _ _ =>
      intro rest us hrest hopens hus
      exact respelled_tokensBody hseg (by decide) (fun _ _ _ => rfl) hrest hopens hus

/-! ### Formulas -/

/-- A row of a worksheet without columns and without references. -/
def Placement.bare (row : Nat) : Placement := ⟨.ofColumns [], row, .empty⟩

theorem reference_bare (row : Nat) : (Placement.bare row).reference = id := by
  funext name
  rfl

/-- A formula that is rejected as malformed is exported as one that is rejected as malformed, and a
formula that is accepted as one of the same value. -/
structure KeepsFaults (l : Limits) (row : Nat) (formula : String) : Prop where
  rejected : (∃ fault, parse l formula = .error (.malformed fault)) →
    ∃ fault, parse l ("=" ++ body l (Placement.bare row).reference formula) =
      .error (.malformed fault)
  accepted : ∀ e, parse l formula = .ok e →
    ∃ e', parse l ("=" ++ body l (Placement.bare row).reference formula) = .ok e' ∧
      ∀ s : Scope, e'.eval s.read = e.eval s.read

theorem body_of_malformed {l : Limits} {cs : List Char} {fault : Fault}
    (h : parse l ("=" ++ String.ofList cs) = .error (.malformed fault))
    (reference : String → String) : body l reference ("=" ++ String.ofList cs) =
      String.ofList (tokensBody reference (tokensIn true cs)) := by
  rw [parse, toList_formula] at h
  rw [body, toList_formula, bodyChars, h, tokenize_of_parseChars (.inl ⟨fault, h⟩)]
  rfl

/-- **The exported text of a formula is a respelling of its tokens**, whether the formula is
malformed or not. -/
theorem respelled_body {l : Limits} {cs : List Char} (hapart : Apart (tokensIn true cs))
    (h : Unreached l ("=" ++ String.ofList cs))
    (hparse : (∃ fault, parse l ("=" ++ String.ofList cs) = .error (.malformed fault)) ∨
      ∃ e, parse l ("=" ++ String.ofList cs) = .ok e) :
    ∃ cs', body l id ("=" ++ String.ofList cs) = String.ofList cs' ∧
      Respelled .worksheet .operand (tokensIn true cs') (tokensIn true cs) := by
  rcases hparse with ⟨fault, hparse⟩ | ⟨e, hparse⟩
  · refine ⟨_, body_of_malformed hparse id, ?_⟩
    have hrespelled : Respelled .worksheet .operand
        (tokensIn true (tokensBody id (tokensIn true cs) ++ [])) (tokensIn true cs ++ []) :=
      respelled_tokensBody hapart (by decide) (fun _ _ _ => rfl) nofun rfl (fun q hq => .nil hq)
    rwa [List.append_nil, List.append_nil] at hrespelled
  · refine ⟨_, body_of_parse hparse, ?_⟩
    have htokens := (h.parse_eq_ok_iff (Nat.lt_succ_self cs.length)).1 hparse
    have hlength : (tokensIn true cs).length ≤ (Limits.above (cs.length + 1)).maxTokens :=
      (length_tokensIn_le true cs).trans ((Nat.le_succ _).trans (Nat.le_succ _))
    have hrespelled : Respelled .worksheet .operand
        (tokensIn true (e.body id ++ [])) (tokensIn true cs ++ []) :=
      (writes_of_parseTokens htokens hapart hlength).respelled ends_nil rfl (.nil (by decide))
    rwa [List.append_nil, List.append_nil] at hrespelled

/-- **Exporting keeps faults where no two neighbouring tokens fuse.** -/
theorem keepsFaults_of_not_fuses {l : Limits} {row : Nat} {formula : String}
    (hfinite : ∀ t ∈ tokensIn true formula.toList.tail, t.isFinite = true)
    (hfuse : (tokensIn true formula.toList.tail).IsChain fun t u => t.fuses u = false)
    (h : Unreached l formula)
    (h' : Unreached l ("=" ++ body l (Placement.bare row).reference formula)) :
    KeepsFaults l row formula := by
  rw [reference_bare] at h'
  have hapart : Apart (tokensIn true formula.toList.tail) := ⟨standInText_tokensIn hfinite, hfuse⟩
  constructor
  · rintro ⟨fault, hparse⟩
    obtain ⟨cs, rfl⟩ := exists_eq_formula (by rw [hparse]; exact nofun)
    rw [toList_formula, List.tail_cons] at hapart
    obtain ⟨cs', hbody, hrespelled⟩ := respelled_body hapart h (.inl ⟨fault, hparse⟩)
    rw [reference_bare]
    rw [hbody] at h' ⊢
    rcases (parse_alike hrespelled h' h).elim with ⟨err, _, hr, hr', herr⟩ | ⟨_, _, _, hr', _⟩
    · cases hparse.symm.trans hr'
      obtain ⟨fault', rfl⟩ := herr.exists_fault
      exact ⟨fault', hr⟩
    · cases hparse.symm.trans hr'
  · intro e hparse
    obtain ⟨cs, rfl⟩ := exists_eq_formula (by rw [hparse]; exact nofun)
    rw [toList_formula, List.tail_cons] at hapart
    obtain ⟨cs', hbody, hrespelled⟩ := respelled_body hapart h (.inr ⟨e, hparse⟩)
    rw [reference_bare]
    rw [hbody] at h' ⊢
    rcases (parse_alike hrespelled h' h).elim with ⟨_, _, _, hr', _⟩ | ⟨e', _, hr, hr', he⟩
    · cases hparse.symm.trans hr'
    · cases hparse.symm.trans hr'
      exact ⟨e', hr, fun s => he.eval_eq call_worksheet _⟩

/-- A formula with an argument that is no expression, and one that ends in minus signs. -/
theorem keepsFaults_of_not_fuses_signs :
    let argument := "=sum(+ 3 * - , x; - 4) - + 2"
    let dangling := "=- + min(3 * , 2) / (x < - -"
    let exported := fun formula => "=" ++ body {} (Placement.bare 1).reference formula
    let apart := fun formula : String =>
      (∀ t ∈ tokensIn true formula.toList.tail, t.isFinite = true) ∧
        (tokensIn true formula.toList.tail).IsChain fun t u => t.fuses u = false
    (apart argument ∧ Unreached {} argument ∧ Unreached {} (exported argument) ∧
        KeepsFaults {} 1 argument) ∧
      apart dangling ∧ Unreached {} dangling ∧ Unreached {} (exported dangling) ∧
        KeepsFaults {} 1 dangling := by
  intro argument dangling exported apart
  have hargument : apart argument := ⟨by decide +kernel, by decide +kernel⟩
  have hdangling : apart dangling := ⟨by decide +kernel, by decide +kernel⟩
  have h₁ : Unreached {} argument := unreached_of_exceed ⟨by decide, by decide, by decide⟩
  have h₂ : Unreached {} dangling := unreached_of_exceed ⟨by decide, by decide, by decide⟩
  have h₁' : Unreached {} (exported argument) :=
    unreached_of_exceed ⟨by decide +kernel, by decide +kernel, by decide +kernel⟩
  have h₂' : Unreached {} (exported dangling) :=
    unreached_of_exceed ⟨by decide +kernel, by decide +kernel, by decide +kernel⟩
  exact ⟨⟨hargument, h₁, h₁', keepsFaults_of_not_fuses hargument.1 hargument.2 h₁ h₁'⟩,
    hdangling, h₂, h₂', keepsFaults_of_not_fuses hdangling.1 hdangling.2 h₂ h₂'⟩

/-- Two numbers with a gap between them are no expression, and without the gap they are a number. -/
theorem not_keepsFaults_gap :
    let formula := "=1 2"
    (∀ t ∈ tokensIn true formula.toList.tail, t.isFinite = true) ∧ Unreached {} formula ∧
      Unreached {} ("=" ++ body {} (Placement.bare 1).reference formula) ∧
      ¬KeepsFaults {} 1 formula := by
  intro formula
  have hbody : body {} (Placement.bare 1).reference formula = "12" := by decide +kernel
  have hgap : ∃ fault, parse {} "=1 2" = .error (.malformed fault) := ⟨_, rfl⟩
  have hnumber : ∃ e, parse {} "=12" = .ok e := ⟨_, rfl⟩
  refine ⟨by decide +kernel, unreached_of_exceed ⟨by decide, by decide, by decide⟩, ?_, ?_⟩
  · rw [hbody]
    exact unreached_of_exceed ⟨by decide, by decide, by decide⟩
  · intro h
    obtain ⟨fault, hfault⟩ := h.rejected hgap
    obtain ⟨e, he⟩ := hnumber
    rw [hbody] at hfault
    cases hfault.symm.trans he

end SheetTemplate.Formula
