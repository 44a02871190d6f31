import SheetTemplate.Formula.Body
import SheetTemplate.Proofs.Formula.Cutting
import Mathlib.Data.List.Forall2

/-!
# Two spellings of one formula

The tokens of two texts may differ although both are spellings of one formula: a minus sign in front
of a literal is a token by itself, or it belongs to the literal; a plus sign in front of an operand
may be missing; and functions may be called by other names. `Respelled` relates such tokens, one
token of the second list at a time.

The relation is kept where the parser cuts: at the parenthesis that closes another
(`Respelled.closing`), and at the commas between arguments (`Respelled.splitAtCommas`).
-/

namespace SheetTemplate.Formula

/-- In what two spellings may differ, apart from the signs of literals. -/
structure Style where
  /-- The name of a call in the first spelling. -/
  callName : String → String
  /-- Whether plus signs in front of operands may be missing from the first spelling. -/
  dropsPlus : Bool

/-- A number as it is written without a sign. -/
structure IsLiteral (x : Float) : Prop where
  isNaN : x.isNaN = false
  isSigned : Number.isSigned x = false

/-- A place between tokens. -/
inductive Position
  /-- An operand has to follow. -/
  | operand
  /-- An operand has to follow, and the second spelling has a minus sign in front of it that belongs
  to a literal in the first. -/
  | minus
  /-- An operator has to follow. -/
  | operator
  deriving DecidableEq

/-- The place behind a token. -/
def Position.after (t : Token) : Position := if t.precedesOperand then .operand else .operator

theorem Position.after_ne_minus (t : Token) : Position.after t ≠ .minus := by
  unfold Position.after
  split_ifs <;> decide

/-- Whether an operand has to follow. -/
def Position.expectsOperand : Position → Bool
  | operand | minus => true
  | operator => false

theorem Position.expectsOperand_after (t : Token) :
    (Position.after t).expectsOperand = t.precedesOperand := by
  unfold Position.after
  cases t.precedesOperand <;> rfl

/-- Whether some tokens start with one that is no end of an argument. -/
def startsItem : List Token → Bool
  | [] | .closeParen :: _ | .comma :: _ => false
  | _ => true

/-- The first tokens spell what the second ones spell. -/
inductive Respelled (σ : Style) : Position → List Token → List Token → Prop
  | nil {p : Position} : p ≠ .minus → Respelled σ p [] []
  | name {p : Position} {ts us : List Token} (name : String) : p ≠ .minus →
      Respelled σ .operator ts us → Respelled σ p
        (.identifier (if opens us then σ.callName name else name) :: ts) (.identifier name :: us)
  | token {p : Position} {t : Token} {ts us : List Token} : p ≠ .minus →
      (∀ name, t ≠ .identifier name) → Respelled σ (.after t) ts us →
      Respelled σ p (t :: ts) (t :: us)
  | plus {p : Position} {ts us : List Token} : σ.dropsPlus = true → p ≠ .operator →
      startsItem ts = true → Respelled σ p ts us → Respelled σ p ts (.operator .add :: us)
  | minus {ts us : List Token} : Respelled σ .minus ts us →
      Respelled σ .operand ts (.operator .sub :: us)
  | literal {x : Float} {ts us : List Token} : IsLiteral x → Respelled σ .operator ts us →
      Respelled σ .minus (.number (-x) :: ts) (.number x :: us)

theorem exists_of_opens {ts : List Token} (h : opens ts = true) : ∃ us, ts = .openParen :: us := by
  cases ts with
  | nil => cases h
  | cons t ts => cases t <;> first | exact ⟨_, rfl⟩ | cases h

namespace Respelled

variable {σ : Style} {p : Position} {ts us : List Token}

theorem sameName (h : σ.callName = id) (name : String) (hp : p ≠ .minus)
    (hrest : Respelled σ .operator ts us) :
    Respelled σ p (.identifier name :: ts) (.identifier name :: us) := by
  have hname := Respelled.name name hp hrest
  rwa [h, id, ite_self] at hname

/-- Tokens spell themselves. -/
theorem refl (h : σ.callName = id) (hp : p ≠ .minus) (ts : List Token) :
    Respelled σ p ts ts := by
  induction ts generalizing p with
  | nil => exact .nil hp
  | cons t ts ih =>
    cases t with
    | identifier name => exact .sameName h name hp (ih (by decide))
    | _ => exact .token hp (fun name => Token.noConfusion) (ih (Position.after_ne_minus _))

theorem startsItem_of_minus (h : Respelled σ p ts us) (hp : p = .minus) :
    startsItem ts = true := by
  cases h with
  | nil hne => exact absurd hp hne
  | name _ hne _ => exact absurd hp hne
  | token hne _ _ => exact absurd hp hne
  | plus _ _ hstarts _ => exact hstarts
  | minus _ => cases hp
  | literal _ _ => rfl

theorem eq_nil_iff (h : Respelled σ p ts us) : ts = [] ↔ us = [] := by
  have hstarts : startsItem ts = true → ts ≠ [] := by
    rintro hts rfl
    cases hts
  cases h with
  | nil _ => exact Iff.rfl
  | plus _ _ hts _ => simp [hstarts hts]
  | minus h => simp [hstarts (h.startsItem_of_minus rfl)]
  | _ => simp

/-- Where an operator has to follow, both spellings open a parenthesis or neither does. -/
theorem opens_eq (h : Respelled σ .operator ts us) : opens ts = opens us := by
  cases h with
  | nil _ => rfl
  | name _ _ _ => rfl
  | @token _ t _ _ _ _ _ => cases t <;> rfl
  | plus _ hne _ _ => exact absurd rfl hne

theorem of_openParen (h : Respelled σ .operator (.openParen :: ts) (.openParen :: us)) :
    Respelled σ .operand ts us := by
  cases h with
  | token _ _ h => exact h

/-- The second spelling is no shorter. -/
theorem length_le (h : Respelled σ p ts us) : ts.length ≤ us.length := by
  induction h with
  | nil _ => exact Nat.le_refl _
  | name _ _ _ ih => exact Nat.succ_le_succ ih
  | token _ _ _ ih => exact Nat.succ_le_succ ih
  | plus _ _ _ _ ih => exact Nat.le_succ_of_le ih
  | minus _ ih => exact Nat.le_succ_of_le ih
  | literal _ _ ih => exact Nat.succ_le_succ ih

end Respelled

/-! ### Signs -/

theorem isLiteral_takeNumber (cs : List Char) : IsLiteral (takeNumber cs).1 :=
  ⟨isNaN_takeNumber cs, isSigned_takeNumber cs⟩

namespace Respelled

variable {σ : Style} {ts us : List Token}

/-- Behind a minus sign that the second spelling has in front, the first one has a sign. -/
theorem isSigned_of_minus {x : Float} (h : Respelled σ .minus (.number x :: ts) us) :
    Number.isSigned x = true := by
  generalize hp : Position.minus = p at h
  generalize hts : Token.number x :: ts = ts' at h
  induction h with
  | nil hne => exact absurd hp.symm hne
  | name _ hne _ _ => exact absurd hp.symm hne
  | token hne _ _ _ => exact absurd hp.symm hne
  | plus _ _ _ _ ih => exact ih hp hts
  | minus _ _ => cases hp
  | literal hx _ _ =>
    cases hts
    rw [Number.isSigned_minus hx.isNaN, hx.isSigned]
    rfl

/-- A literal may take up a minus sign of the second spelling. -/
theorem negate_literal {x : Float} (hx : IsLiteral x)
    (h : Respelled σ .operand (.number x :: ts) us) :
    Respelled σ .minus (.number (-x) :: ts) us := by
  generalize hp : Position.operand = p at h
  generalize hts : Token.number x :: ts = ts' at h
  induction h with
  | nil _ => cases hts
  | name _ _ _ _ => cases hts
  | token _ _ h _ =>
    cases hts
    exact .literal hx h
  | plus hdrops _ _ _ ih => exact .plus hdrops (by decide) rfl (ih hp hts)
  | minus h _ =>
    -- this sign would be the literal's own
    subst hts
    have hsigned := h.isSigned_of_minus
    rw [hx.isSigned] at hsigned
    cases hsigned
  | literal _ _ _ => cases hp

end Respelled

/-- **A minus sign in front of a text** is a token by itself, or it belongs to the literal that the
text starts with. -/
theorem respelled_minus {σ : Style} {cs : List Char} {us : List Token}
    (h : Respelled σ .operand (tokensIn true cs) us) :
    Respelled σ .operand (tokensIn true ('-' :: cs)) (.operator .sub :: us) := by
  cases hnumber : startsNumber cs with
  | true =>
    rw [tokensIn_of_takeToken (takeToken_of_startsNumber hnumber true)] at h
    rw [tokensIn_of_takeToken (takeToken_sign hnumber)]
    exact .minus (h.negate_literal (isLiteral_takeNumber cs))
  | false =>
    rw [tokensIn_of_takeToken (takeToken_minus hnumber true)]
    exact .token (by decide) (fun name => Token.noConfusion) h

/-! ### Closing parentheses -/

theorem closing_eq_some {d : Nat} {ts inner rest : List Token}
    (h : closing d ts = some (inner, rest)) : ts = inner ++ .closeParen :: rest := by
  induction ts generalizing d inner with
  | nil => cases d <;> cases h
  | cons t ts ih =>
    have hcons : ∀ {d'}, (closing d' ts).map (putInFront [t]) = some (inner, rest) →
        t :: ts = inner ++ .closeParen :: rest := by
      intro d' h
      obtain ⟨⟨a, r⟩, ha, he⟩ := Option.map_eq_some_iff.1 h
      cases he
      rw [ih ha]
      rfl
    cases t using Token.paren_cases with
    | openParen => exact hcons (closing_open d ts ▸ h)
    | closeParen =>
      cases d with
      | zero => cases h; rfl
      | succ d => exact hcons h
    | other t ht => exact hcons (closing_token ht d ts ▸ h)

theorem startsItem_append_close (ts rest : List Token) :
    startsItem (ts ++ .closeParen :: rest) = startsItem ts := by
  cases ts with
  | nil => rfl
  | cons t ts => cases t <;> rfl

theorem opens_append_close (ts rest : List Token) :
    opens (ts ++ .closeParen :: rest) = opens ts := by
  cases ts with
  | nil => rfl
  | cons t ts => cases t <;> rfl

/-- Two lists of tokens that are cut in two are respelled on either side, where an operator has to
follow the cut. -/
def RespelledParts (σ : Style) (p : Position) (a b : List Token × List Token) : Prop :=
  Respelled σ p a.1 b.1 ∧ Respelled σ .operator a.2 b.2

theorem optionRel_elim {α β : Type} {R : α → β → Prop} {o : Option α} {o' : Option β}
    (h : Option.Rel R o o') :
    o = none ∧ o' = none ∨ ∃ a b, o = some a ∧ o' = some b ∧ R a b := by
  cases h with
  | none => exact .inl ⟨rfl, rfl⟩
  | some hab => exact .inr ⟨_, _, rfl, rfl, hab⟩

theorem optionRel_map {α β γ δ : Type} {R : α → β → Prop} {S : γ → δ → Prop} {f : α → γ}
    {g : β → δ} {o : Option α} {o' : Option β} (h : Option.Rel R o o')
    (hS : ∀ a b, o = some a → o' = some b → R a b → S (f a) (g b)) :
    Option.Rel S (o.map f) (o'.map g) := by
  cases h with
  | none => exact .none
  | some hab => exact .some (hS _ _ rfl rfl hab)

theorem optionRel_map_right {α β δ : Type} {R : α → β → Prop} {S : α → δ → Prop} {g : β → δ}
    {o : Option α} {o' : Option β} (h : Option.Rel R o o')
    (hS : ∀ a b, o = some a → R a b → S a (g b)) : Option.Rel S o (o'.map g) := by
  cases h with
  | none => exact .none
  | some hab => exact .some (hS _ _ rfl hab)

namespace Respelled

variable {σ : Style} {p : Position} {ts us : List Token}

/-- **The parenthesis that closes** is the same in both spellings. -/
theorem closing (h : Respelled σ p ts us) (d : Nat) :
    Option.Rel (RespelledParts σ p) (closing d ts) (closing d us) := by
  induction h generalizing d with
  | nil _ => cases d <;> exact .none
  | @name p ts us name hp h ih =>
    rw [closing_token rfl, closing_token rfl]
    refine optionRel_map (ih d) fun a b _ hb hab => ⟨?_, hab.2⟩
    -- what follows the name inside the parentheses opens where it does on the whole level
    have hopens : opens b.1 = opens us := by
      rw [closing_eq_some hb, opens_append_close]
    exact hopens ▸ .name name hp hab.1
  | @token p t ts us hp hname h ih =>
    cases t using Token.paren_cases with
    | openParen =>
      rw [closing_open, closing_open]
      exact optionRel_map (ih (d + 1)) fun a b _ _ hab => ⟨.token hp hname hab.1, hab.2⟩
    | closeParen =>
      cases d with
      | zero => exact .some ⟨.nil hp, h⟩
      | succ d =>
        rw [closing_close_succ, closing_close_succ]
        exact optionRel_map (ih d) fun a b _ _ hab => ⟨.token hp hname hab.1, hab.2⟩
    | other t ht =>
      rw [closing_token ht, closing_token ht]
      exact optionRel_map (ih d) fun a b _ _ hab => ⟨.token hp hname hab.1, hab.2⟩
  | @plus p ts us hdrops hp hstarts h ih =>
    rw [closing_token (t := .operator .add) rfl]
    refine optionRel_map_right (ih d) fun a b ha hab => ⟨.plus hdrops hp ?_ hab.1, hab.2⟩
    rwa [closing_eq_some ha, startsItem_append_close] at hstarts
  | minus h ih =>
    rw [closing_token (t := .operator .sub) rfl]
    exact optionRel_map_right (ih d) fun a b _ hab => ⟨.minus hab.1, hab.2⟩
  | literal hx h ih =>
    rw [closing_token rfl, closing_token rfl]
    exact optionRel_map (ih d) fun a b _ _ hab => ⟨.literal hx hab.1, hab.2⟩

end Respelled

/-! ### Commas between arguments -/

/-- A token stays in front of the first argument, unless it is a comma that ends it. -/
theorem splitAtCommas_cons (d : Nat) (t : Token) : t = .comma ∧ d = 0 ∨
    ∃ d', ∀ ts, splitAtCommas d (t :: ts) = prepend t (splitAtCommas d' ts) := by
  cases t with
  | openParen => exact .inr ⟨_, splitAtCommas_open d⟩
  | closeParen => exact .inr ⟨d - 1, fun ts => by cases d <;> rfl⟩
  | comma =>
    cases d with
    | zero => exact .inl ⟨rfl, rfl⟩
    | succ d => exact .inr ⟨_, splitAtCommas_token rfl (.inl d.succ_pos)⟩
  | _ => exact .inr ⟨d, splitAtCommas_token rfl (.inr Token.noConfusion)⟩

/-- The first argument starts like the tokens that are cut. -/
theorem head_of_splitAtCommas {d : Nat} {ts s : List Token} {segs : List (List Token)}
    (h : splitAtCommas d ts = s :: segs) :
    startsItem s = startsItem ts ∧ opens s = opens ts := by
  cases ts with
  | nil =>
    cases h
    exact ⟨rfl, rfl⟩
  | cons t ts =>
    rcases splitAtCommas_cons d t with ⟨rfl, rfl⟩ | ⟨d', heq⟩
    · cases h
      exact ⟨rfl, rfl⟩
    · rw [heq] at h
      have hhead : s.head? = some t := by
        cases hsplit : splitAtCommas d' ts <;> rw [hsplit] at h <;> cases h <;> rfl
      cases s with
      | nil => cases hhead
      | cons t' s =>
        cases hhead
        cases t <;> exact ⟨rfl, rfl⟩

/-- Two lists of arguments are respelled one by one, where the first ones stand at place `p`. -/
inductive RespelledArguments (σ : Style) (p : Position) :
    List (List Token) → List (List Token) → Prop
  | cons {s s' : List Token} {segs segs' : List (List Token)} : Respelled σ p s s' →
      List.Forall₂ (Respelled σ .operand) segs segs' →
      RespelledArguments σ p (s :: segs) (s' :: segs')

namespace RespelledArguments

variable {σ : Style} {p q : Position} {segs segs' : List (List Token)}

theorem prepend (h : RespelledArguments σ q segs segs') {t t' : Token}
    (hcons : ∀ {s s' rest rest'}, segs = s :: rest → segs' = s' :: rest' →
      Respelled σ q s s' → Respelled σ p (t :: s) (t' :: s')) :
    RespelledArguments σ p (prepend t segs) (prepend t' segs') := by
  obtain ⟨hs, hrest⟩ := h
  exact .cons (hcons rfl rfl hs) hrest

theorem prepend_right (h : RespelledArguments σ q segs segs') {t' : Token}
    (hcons : ∀ {s s' rest}, segs = s :: rest →
      Respelled σ q s s' → Respelled σ p s (t' :: s')) :
    RespelledArguments σ p segs (Formula.prepend t' segs') := by
  obtain ⟨hs, hrest⟩ := h
  exact .cons (hcons rfl hs) hrest

theorem forall₂ (h : RespelledArguments σ .operand segs segs') :
    List.Forall₂ (Respelled σ .operand) segs segs' := by
  obtain ⟨hs, hrest⟩ := h
  exact .cons hs hrest

end RespelledArguments

namespace Respelled

variable {σ : Style} {p : Position} {ts us : List Token}

/-- **The commas between arguments** are the same in both spellings. -/
theorem splitAtCommas (h : Respelled σ p ts us) (d : Nat) :
    RespelledArguments σ p (splitAtCommas d ts) (splitAtCommas d us) := by
  induction h generalizing d with
  | nil hp => cases d <;> exact .cons (.nil hp) .nil
  | @name p ts us name hp h ih =>
    rw [splitAtCommas_token rfl (.inr Token.noConfusion),
      splitAtCommas_token rfl (.inr Token.noConfusion)]
    refine (ih d).prepend fun {s s' rest rest'} _ hs' hss' => ?_
    exact (head_of_splitAtCommas hs').2 ▸ .name name hp hss'
  | @token p t ts us hp hname h ih =>
    rcases splitAtCommas_cons d t with ⟨rfl, rfl⟩ | ⟨d', heq⟩
    · rw [splitAtCommas_comma, splitAtCommas_comma]
      exact .cons (.nil hp) (ih 0).forall₂
    · rw [heq, heq]
      exact (ih d').prepend fun _ _ hss' => .token hp hname hss'
  | @plus p ts us hdrops hp hstarts h ih =>
    rw [splitAtCommas_token (t := .operator .add) rfl (.inr Token.noConfusion)]
    refine (ih d).prepend_right fun {s s' rest} hs hss' => .plus hdrops hp ?_ hss'
    rw [(head_of_splitAtCommas hs).1, hstarts]
  | minus h ih =>
    rw [splitAtCommas_token (t := .operator .sub) rfl (.inr Token.noConfusion)]
    exact (ih d).prepend_right fun _ hss' => .minus hss'
  | literal hx h ih =>
    rw [splitAtCommas_token rfl (.inr Token.noConfusion),
      splitAtCommas_token rfl (.inr Token.noConfusion)]
    exact (ih d).prepend fun _ _ hss' => .literal hx hss'

end Respelled
end SheetTemplate.Formula
