import SheetTemplate.Proofs.Formula.Inlining
import SheetTemplate.Proofs.Formula.Pieces
import SheetTemplate.Proofs.Formula.Tokenization

/-!
# The tokens of a tree

A tree is laid out as tokens again (`Expr.tokens`), and it is exported as these tokens, one by one
(`pieces_eq_tokenPieces`). They are the tokens that the tree was read off, in their order, less the
signs `+` and less what is behind the cap of a level (`ReadOff.sublist`, `ReadOff.tokenwise_eq`).

`ReadOff` says how a tree stems from its tokens, one rule for each kind of tree, without the limits
and without the parser; every tree that is read stems from its tokens (`readOff_of_parse`).
-/

namespace SheetTemplate.Formula

/-! ### Lists from tokens -/

section

variable {α : Type} (part : Token → List α) (call : String → List α)

/-- What tokens give one by one, where a name in front of an opening parenthesis gives what a call
of this name does. -/
def tokenwise : List Token → List α
  | [] => []
  | .identifier name :: ts =>
    (if opens ts then call name else part (.identifier name)) ++ tokenwise ts
  | t :: ts => part t ++ tokenwise ts

theorem tokenwise_cons {t : Token} (ht : ∀ name, t ≠ .identifier name) (ts : List Token) :
    tokenwise part call (t :: ts) = part t ++ tokenwise part call ts := by
  cases t with
  | identifier name => exact absurd rfl (ht name)
  | _ => rfl

/-- Tokens are taken apart in front of every token but an opening parenthesis. -/
theorem tokenwise_append {u : Token} (hu : u ≠ .openParen) (ts us : List Token) :
    tokenwise part call (ts ++ u :: us) =
      tokenwise part call ts ++ tokenwise part call (u :: us) := by
  have hopens : opens (u :: us) = false := by
    cases u with
    | openParen => exact absurd rfl hu
    | _ => rfl
  induction ts with
  | nil => rfl
  | cons t ts ih =>
    by_cases hname : ∃ name, t = .identifier name
    · obtain ⟨name, rfl⟩ := hname
      rw [List.cons_append, tokenwise, tokenwise, opens_append hopens, ih, List.append_assoc]
    · have ht : ∀ name, t ≠ .identifier name := fun name heq => hname ⟨name, heq⟩
      rw [List.cons_append, tokenwise_cons part call ht, tokenwise_cons part call ht, ih,
        List.append_assoc]

theorem tokenwise_intercalate (segs : List (List Token)) :
    tokenwise part call ([Token.comma].intercalate segs) =
      (part .comma).intercalate (segs.map (tokenwise part call)) := by
  induction segs with
  | nil => rfl
  | cons s segs ih =>
    cases segs with
    | nil => simp
    | cons s' segs =>
      simp only [List.intercalate_cons_cons, List.map_cons, List.append_assoc,
        List.singleton_append] at ih ⊢
      rw [tokenwise_append _ _ Token.noConfusion, tokenwise, ih]
      nofun

end

theorem tokenPieces_eq_tokenwise (ts : List Token) : tokenPieces ts = tokenwise
    (fun
      | .identifier name => [.name name]
      | t => [.text t.chars])
    (fun name => [.text (Function.exportNameOf name).toList]) ts := by
  induction ts with
  | nil => rfl
  | cons t ts ih =>
    cases t with
    | identifier name =>
      rw [tokenPieces, tokenwise, ih]
      split <;> rfl
    | _ => rw [tokenwise_cons _ _ fun _ => Token.noConfusion, ← ih]; rfl

theorem tokenPieces_append {u : Token} (hu : u ≠ .openParen) (ts us : List Token) :
    tokenPieces (ts ++ u :: us) = tokenPieces ts ++ tokenPieces (u :: us) := by
  simp only [tokenPieces_eq_tokenwise, tokenwise_append _ _ hu]

/-! ### Trees laid out as tokens -/

namespace Expr

mutual

/-- The tokens of a tree. -/
def tokens : Expr → List Token
  | number x => [.number x]
  | identifier name => [.identifier name]
  | binary op left right => left.tokens ++ .operator op :: right.tokens
  | negate operand => .operator .sub :: operand.tokens
  | group inner => .openParen :: (inner.tokens ++ [.closeParen])
  | call name args => .identifier name :: .openParen :: (argTokens args ++ [.closeParen])
  | invalid tokens => tokens

/-- The tokens of some trees with commas between them. -/
def argTokens : List Expr → List Token
  | [] => []
  | [e] => e.tokens
  | e :: es => e.tokens ++ .comma :: argTokens es

end

theorem argTokens_eq_intercalate (es : List Expr) :
    argTokens es = [Token.comma].intercalate (es.map tokens) := by
  refine eq_intercalate_map (by rw [argTokens]) (fun e => by rw [argTokens]) (fun e e' es => ?_) es
  rw [argTokens, List.append_assoc, List.singleton_append]
  exact List.cons_ne_nil _ _

mutual

/-- **A tree is exported token by token.** -/
theorem pieces_eq_tokenPieces : (e : Expr) → e.pieces = tokenPieces e.tokens
  | number _ | identifier _ | invalid _ => rfl
  | binary op left right => by
    simp [pieces, tokens, tokenPieces, tokenPieces_append, Token.chars,
      pieces_eq_tokenPieces left, pieces_eq_tokenPieces right]
  | negate operand => by
    simp [pieces, tokens, tokenPieces, Token.chars, Operator.chars,
      pieces_eq_tokenPieces operand]
  | group inner => by
    simp [pieces, tokens, tokenPieces, tokenPieces_append, Token.chars,
      pieces_eq_tokenPieces inner]
  | call name args => by
    simp [pieces, tokens, tokenPieces, tokenPieces_append, opens, Token.chars,
      argPieces_eq_tokenPieces args]

theorem argPieces_eq_tokenPieces : (es : List Expr) → argPieces es = tokenPieces (argTokens es)
  | [] => rfl
  | [e] => pieces_eq_tokenPieces e
  | e :: e' :: es => by
    show e.pieces ++ .text [','] :: argPieces (e' :: es) =
      tokenPieces (e.tokens ++ .comma :: argTokens (e' :: es))
    simp [tokenPieces, tokenPieces_append, Token.chars, pieces_eq_tokenPieces e,
      argPieces_eq_tokenPieces (e' :: es)]

end

end Expr

/-! ### Trees and the tokens that they are read off -/

/-- How a tree stems from tokens. Under `capped`, the tokens of a level may go on behind those that
it is read off. -/
inductive ReadOff (capped : Prop) : List Token → Expr → Prop
  | number (x : Float) : ReadOff capped [.number x] (.number x)
  | identifier (name : String) : ReadOff capped [.identifier name] (.identifier name)
  | group {ts : List Token} {e : Expr} : ReadOff capped ts e →
      ReadOff capped (.openParen :: (ts ++ [.closeParen])) (.group e)
  | call (name : String) {args : List (List Token × Expr)} :
      (∀ arg ∈ args, ReadOff capped arg.1 arg.2) →
      ReadOff capped (.identifier name :: .openParen ::
        ([Token.comma].intercalate (args.map Prod.fst) ++ [.closeParen]))
        (.call name (args.map Prod.snd))
  | minus {ts : List Token} {e : Expr} : ReadOff capped ts e →
      ReadOff capped (.operator .sub :: ts) (.negate e)
  | plus {ts : List Token} {e : Expr} : ReadOff capped ts e →
      ReadOff capped (.operator .add :: ts) e
  | binary (op : Operator) {ts us : List Token} {left right : Expr} : ReadOff capped ts left →
      ReadOff capped us right → ReadOff capped (ts ++ .operator op :: us) (.binary op left right)
  | invalid (ts : List Token) : ReadOff capped ts (.invalid ts)
  | rest {ts : List Token} {e : Expr} (us : List Token) : capped → ReadOff capped ts e →
      ReadOff capped (ts ++ us) e

section

variable {l : Limits} {capped : Prop}

theorem readOff_of_argumentTree {depth : Nat} {s : List Token} {e : Expr}
    (htree : parseTokens l depth s = .ok e → ReadOff capped s e) (h : ArgumentTree l depth s e) :
    ReadOff capped s e := by
  cases h with
  | tree hparse => exact htree hparse
  | invalid _ _ => exact .invalid s

/-- A level stems from its tokens where the levels inside its calls do. -/
theorem readOff_of_derives {depth : Nat} {t : Tier} {ts : List Token} {e : Expr}
    (hargs : ∀ us e, depth + 1 ≤ l.maxDepth → parseTokens l (depth + 1) us = .ok e →
      capped ∨ us.length ≤ l.maxTokens → ReadOff capped us e)
    (h : Derives l depth t ts e) (hcap : capped ∨ ts.length ≤ l.maxTokens) :
    ReadOff capped ts e := by
  induction h with
  | number x => exact .number x
  | identifier name => exact .identifier name
  | group _ ih =>
    refine .group (ih (hcap.imp_right fun hle => ?_))
    simp only [List.length_cons, List.length_append] at hle
    omega
  | @call name inner args hdepth hinner =>
    cases hinner with
    | none => exact .call name fun arg (harg : arg ∈ []) => by cases harg
    | @some segs args _ _ _ hall =>
      obtain ⟨hlength, hzip⟩ := List.forall₂_iff_zip.1 hall
      have hcall := @ReadOff.call capped name (segs.zip args) fun arg harg => by
        refine readOff_of_argumentTree (fun hparse => ?_) (hzip harg)
        refine hargs _ _ hdepth hparse (hcap.imp_right fun hle => ?_)
        have hseg := (isInfix_intercalate [Token.comma] (List.of_mem_zip harg).1).length_le
        simp only [List.length_cons, List.length_append] at hle
        omega
      rwa [List.map_fst_zip hlength.le, List.map_snd_zip hlength.ge] at hcall
  | minus _ ih => exact .minus (ih (hcap.imp_right (Nat.le_succ _).trans))
  | plus _ ih => exact .plus (ih (hcap.imp_right (Nat.le_succ _).trans))
  | @binary _ op ts us _ _ _ _ _ ihl ihr =>
    have hlength : (ts ++ .operator op :: us).length = ts.length + us.length + 1 := by
      rw [List.length_append, List.length_cons, Nat.add_assoc]
    rw [hlength] at hcap
    exact .binary op (ihl (hcap.imp_right fun hle => by omega))
      (ihr (hcap.imp_right fun hle => by omega))
  | lift _ ih => exact ih hcap

/-- What is behind the cap of a level is not read. -/
theorem readOff_of_level {depth : Nat} {ts : List Token} {e : Expr}
    (hargs : ∀ us e, depth + 1 ≤ l.maxDepth → parseTokens l (depth + 1) us = .ok e →
      capped ∨ us.length ≤ l.maxTokens → ReadOff capped us e)
    (h : parseTokens l depth ts = .ok e) (hcap : capped ∨ ts.length ≤ l.maxTokens) :
    ReadOff capped ts e := by
  have hderives := derives_of_parseTokens h
  rcases hcap with hcapped | hle
  · obtain ⟨rest, hrest⟩ := firstItems_isPrefix l.maxTokens ts
    rw [← hrest]
    exact .rest rest hcapped (readOff_of_derives hargs hderives (.inl hcapped))
  · rw [firstItems_eq_self hle] at hderives
    exact readOff_of_derives hargs hderives (.inr hle)

/-- **A tree stems from the tokens that it is read off.** -/
theorem readOff_of_parseTokens {depth : Nat} {ts : List Token} {e : Expr}
    (h : parseTokens l depth ts = .ok e) (hcap : capped ∨ ts.length ≤ l.maxTokens) :
    ReadOff capped ts e := by
  -- on the nesting that is left, which is less inside a call
  induction hn : l.maxDepth - depth using Nat.strong_induction_on generalizing depth ts e with
  | _ n ih =>
    refine readOff_of_level (fun us e' hdepth hparse hcap' => ?_) h hcap
    exact ih (l.maxDepth - (depth + 1)) (by omega) hparse hcap' rfl

end

/-! ### What a tree keeps of its tokens -/

theorem sublist_intercalate {α : Type} (sep : List α) {β : Type} {f g : β → List α} {bs : List β}
    (h : ∀ b ∈ bs, (f b).Sublist (g b)) :
    (sep.intercalate (bs.map f)).Sublist (sep.intercalate (bs.map g)) := by
  induction bs with
  | nil => exact .slnil
  | cons b bs ih =>
    have hb : (f b).Sublist (g b) := h b List.mem_cons_self
    have hbs := ih fun b' hb' => h b' (List.mem_cons_of_mem _ hb')
    cases bs with
    | nil => simpa using hb
    | cons b' bs =>
      simp only [List.map_cons, List.intercalate_cons_cons, List.append_assoc] at hbs ⊢
      exact hb.append (hbs.append_left sep)

namespace ReadOff

variable {capped : Prop} {ts : List Token} {e : Expr}

/-- The tokens of a tree are some of those that it is read off, in their order. -/
theorem sublist (h : ReadOff capped ts e) : e.tokens.Sublist ts := by
  induction h with
  | number x => exact .refl _
  | identifier name => exact .refl _
  | group _ ih => exact (ih.append_right _).cons_cons _
  | @call name args _ ih =>
    rw [Expr.tokens, Expr.argTokens_eq_intercalate, List.map_map]
    exact (((sublist_intercalate _ ih).append_right _).cons_cons _).cons_cons _
  | minus _ ih => exact ih.cons_cons _
  | plus _ ih => exact ih.cons _
  | binary op _ _ ihl ihr => exact ihl.append (ihr.cons_cons _)
  | invalid ts => exact .refl _
  | rest us _ _ ih => exact ih.trans (List.sublist_append_left _ _)

/-- **A tree keeps all of its tokens but the signs `+`**, where no cap cuts them. -/
theorem tokenwise_eq {α : Type} {part : Token → List α} {call : String → List α}
    (hplus : part (.operator .add) = []) (h : ReadOff False ts e) :
    tokenwise part call e.tokens = tokenwise part call ts := by
  induction h with
  | number x => rfl
  | identifier name => rfl
  | group _ ih => simp [Expr.tokens, tokenwise, tokenwise_append, ih]
  | @call name args _ ih =>
    have hargs : args.map (fun arg => tokenwise part call arg.2.tokens) =
        args.map fun arg => tokenwise part call arg.1 := List.map_congr_left ih
    simp [Expr.tokens, Expr.argTokens_eq_intercalate, tokenwise, tokenwise_append,
      tokenwise_intercalate, opens, Function.comp_def, hargs]
  | minus _ ih => simp [Expr.tokens, tokenwise, ih]
  | plus _ ih => simp [tokenwise, hplus, ih]
  | binary op _ _ ihl ihr => simp [Expr.tokens, tokenwise, tokenwise_append, ihl, ihr]
  | invalid ts => rfl
  | rest us hcapped _ _ => exact hcapped.elim

end ReadOff

/-! ### Formulas -/

/-- A cap with room for all tokens of a level does not matter. -/
theorem parseLevel_eq_of_length_le {l l' : Limits} (hdepth : l.maxDepth = l'.maxDepth) (n : Nat)
    {ts : List Token} (h : ts.length ≤ l.maxTokens) (h' : ts.length ≤ l'.maxTokens) :
    parseLevel l n ts = parseLevel l' n ts := by
  induction n generalizing ts with
  | zero => rw [parseLevel, parseLevel, items_eq_itemsIn h, items_eq_itemsIn h', hdepth]
  | succ n ih =>
    rw [parseLevel, parseLevel, items_eq_itemsIn h, items_eq_itemsIn h']
    refine Yard.run_congr (fun name inner hmem => ?_) _
    have hlt := length_add_lt_of_call_mem hmem
    have hinner : Balanced inner := balanced_of_call_mem_items hmem
    have hargs : ∀ s ∈ splitAtCommas 0 inner, parseLevel l n s = parseLevel l' n s := by
      intro s hs
      have hle := (isInfix_of_mem_splitAtCommas hinner hs).length_le
      exact ih (by omega) (by omega)
    rw [parseCall, parseCall]
    split_ifs
    · rfl
    · rw [parseArguments_congr hargs]

/-- A formula does not reach the cap on the items of its levels: a higher one reads the same. -/
def TokensUnreached (l : Limits) (formula : String) : Prop :=
  ∀ n, l.maxTokens ≤ n → parse { l with maxTokens := n } formula = parse l formula

/-- A cap with room for all tokens of a formula is not reached. -/
theorem tokensUnreached_of_length_le {l : Limits} {formula : String}
    (h : (tokensOfFormula formula).length ≤ l.maxTokens) : TokensUnreached l formula := by
  intro n hn
  rw [tokensOfFormula] at h
  unfold parse parseChars
  split
  · rename_i body hbody
    split_ifs with hlong
    · rfl
    · have hfits : body.length ≤ l.maxLength := (Nat.le_succ _).trans (Nat.le_of_not_lt hlong)
      rw [hbody, List.tail_cons, ← tokensOf_eq_tokensIn hfits] at h
      rw [tokenize]
      split
      · rfl
      · rw [parseTokens, parseTokens]
        refine parseLevel_eq_of_length_le ?_ _ ?_ h
        · rfl
        · exact h.trans hn
  · rfl

theorem readOff_of_parse {l : Limits} {formula : String} {e : Expr}
    (h : parse l formula = .ok e) : ReadOff True (tokensOfFormula formula) e :=
  readOff_of_parseTokens (parseTokens_of_parse h nofun nofun nofun) (.inl trivial)

/-- **A formula that does not reach the cap is read by all of its tokens.** -/
theorem TokensUnreached.readOff {l : Limits} {formula : String} {e : Expr}
    (hcap : TokensUnreached l formula) (h : parse l formula = .ok e) :
    ReadOff False (tokensOfFormula formula) e := by
  -- under a cap with room for all tokens the formula has the same tree
  let n := max l.maxTokens (tokensOfFormula formula).length
  have hparse : parse { l with maxTokens := n } formula = .ok e :=
    (hcap n (le_max_left _ _)).trans h
  exact readOff_of_parseTokens (parseTokens_of_parse hparse nofun nofun nofun)
    (.inr (le_max_right _ _))

end SheetTemplate.Formula
