import SheetTemplate.Proofs.Formula.Recognition
import SheetTemplate.Proofs.Formula.Spelling

/-!
# The trees that the parser builds

The parser does not build every tree: an operator has no weaker operator among its operands unless
parentheses stand between them, and the names of functions are words. `Built` says so tier by tier,
without the tokens that a tree was read from; a tree that was read is built in this way where all of
its arguments are expressions and no literal is infinite (`built_of_parse`).
-/

namespace SheetTemplate.Formula

open Number

namespace Expr

mutual

/-- No argument of the tree is left as tokens, and no literal is infinite. -/
def isPlain : Expr → Bool
  | number x => !x.isInf
  | identifier _ => true
  | binary _ left right => left.isPlain && right.isPlain
  | negate operand => operand.isPlain
  | group inner => inner.isPlain
  | call _ args => arePlain args
  | invalid _ => false

/-- No tree has arguments that are left as tokens, or infinite literals. -/
def arePlain : List Expr → Bool
  | [] => true
  | e :: es => e.isPlain && arePlain es

end

/-! ### Lists of trees -/

theorem isPlain_of_mem {es : List Expr} (h : arePlain es = true) {e : Expr} (he : e ∈ es) :
    e.isPlain = true := by
  induction es with
  | nil => cases he
  | cons e' es ih =>
    rw [arePlain, Bool.and_eq_true] at h
    rcases List.mem_cons.1 he with rfl | he
    · exact h.1
    · exact ih h.2 he

theorem mem_namesOfAll {es : List Expr} {e : Expr} (he : e ∈ es) {name : String}
    (h : name ∈ e.names) : name ∈ namesOfAll es := by
  induction es with
  | nil => cases he
  | cons e' es ih =>
    rw [namesOfAll, List.mem_append]
    rcases List.mem_cons.1 he with rfl | he
    · exact .inl h
    · exact .inr (ih he)

end Expr

/-- A tree of a tier as the parser builds it, where all of its names have a property. -/
inductive Built (named : String → Prop) : Tier → Expr → Prop
  | number {x : Float} : x.isFinite = true → Built named .primary (.number x)
  | identifier {name : String} : named name → Built named .primary (.identifier name)
  | group {e : Expr} : Built named .comparison e → Built named .primary (.group e)
  | call {name : String} {args : List Expr} : IsWord name →
      (∀ arg ∈ args, Built named .comparison arg) → Built named .primary (.call name args)
  | negate {e : Expr} : Built named .unary e → Built named .unary (.negate e)
  | binary {t : Tier} {op : Operator} {left right : Expr} : op ∈ t.operators →
      Built named t left → Built named t.next right → Built named t (.binary op left right)
  | lift {t : Tier} {e : Expr} : Built named t.next e → Built named t e

/-! ### The tokens of a text -/

/-- A token as it is read off a text: a name is a word, and a number is not undefined. -/
def IsRead : Token → Prop
  | .number x => x.isNaN = false
  | .identifier name => IsWord name
  | _ => True

theorem isNaN_takeNumber (cs : List Char) : (takeNumber cs).1.isNaN = false := by
  unfold takeNumber
  simp only []
  split
  · exact isNaN_ofScientific _ _
  · exact isNaN_ofScientific _ _

theorem isRead_of_takeWord {cs rest : List Char} {t : Token}
    (h : takeWord cs = some (t, rest)) : IsRead t := by
  cases cs with
  | nil => cases h
  | cons c cs =>
    simp only [takeWord] at h
    split_ifs at h with hnumber hname
    · obtain ⟨rfl, -⟩ := Prod.mk.inj (Option.some.inj h)
      exact isNaN_takeNumber _
    · obtain ⟨rfl, -⟩ := Prod.mk.inj (Option.some.inj h)
      refine ⟨c, cs.takeWhile isNameChar, String.toList_ofList, hname, fun d hd => ?_⟩
      exact List.mem_takeWhile_imp hd

theorem isRead_of_takeToken {signed : Bool} {cs rest : List Char} {t : Token}
    (h : takeToken signed cs = some (t, rest)) : IsRead t := by
  unfold takeToken at h
  split at h
  case h_2 =>
    split at h
    · obtain ⟨rfl, -⟩ := Prod.mk.inj (Option.some.inj h)
      exact isNaN_neg (isNaN_takeNumber _)
    · obtain ⟨rfl, -⟩ := Prod.mk.inj (Option.some.inj h)
      trivial
  case h_16 => exact isRead_of_takeWord h
  all_goals
    obtain ⟨rfl, -⟩ := Prod.mk.inj (Option.some.inj h)
    trivial

/-- The next token stands at the start of some later part of the text. -/
theorem exists_takeToken_of_nextToken {signed : Bool} {cs : List Char} {p : Token × List Char}
    (h : nextToken signed cs = some p) :
    ∃ c cs', c :: cs' <:+ cs ∧ takeToken signed (c :: cs') = some p := by
  induction cs with
  | nil => cases h
  | cons c cs ih =>
    rw [nextToken] at h
    cases htake : takeToken signed (c :: cs) with
    | none =>
      obtain ⟨c', cs', hsuffix, htake'⟩ := ih (by rwa [htake, Option.none_or] at h)
      exact ⟨c', cs', hsuffix.trans (List.suffix_cons c cs), htake'⟩
    | some q =>
      rw [htake, Option.some_or] at h
      exact ⟨c, cs, List.suffix_rfl, htake.trans h⟩

theorem isRead_of_nextToken {signed : Bool} {cs rest : List Char} {t : Token}
    (h : nextToken signed cs = some (t, rest)) : IsRead t := by
  obtain ⟨c, cs', -, htake⟩ := exists_takeToken_of_nextToken h
  exact isRead_of_takeToken htake

/-- Every token of a text is as it is read off a text. -/
theorem isRead_of_mem_tokensOf {cap : Nat} {signed : Bool} {cs : List Char} {t : Token}
    (h : t ∈ tokensOf cap signed cs) : IsRead t := by
  induction cap generalizing signed cs with
  | zero => cases h
  | succ cap ih =>
    rw [tokensOf] at h
    split at h
    · cases h
    · rename_i t' rest hnext
      rcases List.mem_cons.1 h with rfl | h
      · exact isRead_of_nextToken hnext
      · exact ih h

/-! ### What was read is built -/

/-- All tokens are as they are read off a text. -/
def AreRead (ts : List Token) : Prop := ∀ t ∈ ts, IsRead t

theorem AreRead.mono {ts us : List Token} (h : AreRead ts) (hsub : us ⊆ ts) : AreRead us :=
  fun t ht => h t (hsub ht)

/-- What is written item by item, with a separator in front of all but the first. -/
theorem eq_intercalate_map {α β : Type} {f : List α → List β} {g : α → List β} {sep : List β}
    (hnil : f [] = []) (hone : ∀ a, f [a] = g a)
    (hcons : ∀ a b as, f (a :: b :: as) = g a ++ sep ++ f (b :: as)) (as : List α) :
    f as = sep.intercalate (as.map g) := by
  induction as with
  | nil => exact hnil
  | cons a as ih =>
    cases as with
    | nil => rw [hone, List.map_cons, List.map_nil, List.intercalate_singleton]
    | cons b as =>
      simp only [hcons, ih, List.map_cons, List.intercalate_cons_cons, List.append_assoc]

/-- A list stands as it is among the lists with separators between them. -/
theorem isInfix_intercalate {α : Type} (sep : List α) {xss : List (List α)} {xs : List α}
    (h : xs ∈ xss) : xs <:+: sep.intercalate xss := by
  induction xss with
  | nil => cases h
  | cons ys xss ih =>
    cases xss with
    | nil =>
      rw [List.mem_singleton.1 h, List.intercalate_singleton]
    | cons zs xss =>
      rw [List.intercalate_cons_cons]
      rcases List.mem_cons.1 h with rfl | h
      · exact ⟨[], sep ++ sep.intercalate (zs :: xss), by simp⟩
      · exact (ih h).trans (List.suffix_append _ _).isInfix

theorem exists_of_forall₂ {α β : Type} {R : α → β → Prop} {as : List α} {bs : List β}
    (h : List.Forall₂ R as bs) {b : β} (hb : b ∈ bs) : ∃ a ∈ as, R a b := by
  obtain ⟨i, hi, rfl⟩ := List.getElem_of_mem hb
  have hi' : i < as.length := h.length_eq ▸ hi
  exact ⟨as[i], List.getElem_mem hi', h.get hi' hi⟩

variable {l : Limits} {named : String → Prop}

/-- A level is built where the levels inside its calls are. -/
theorem built_of_derives {depth : Nat} {t : Tier} {ts : List Token} {e : Expr}
    (hargs : ∀ us e, depth + 1 ≤ l.maxDepth → parseTokens l (depth + 1) us = .ok e → AreRead us →
      e.isPlain = true → (∀ name ∈ e.names, named name) → Built named .comparison e)
    (h : Derives l depth t ts e) (hread : AreRead ts) (hplain : e.isPlain = true)
    (hnamed : ∀ name ∈ e.names, named name) : Built named t e := by
  induction h with
  | number x =>
    have hinf : x.isInf = false := by simpa [Expr.isPlain] using hplain
    exact .number (isFinite_of_not_isNaN_of_not_isInf (hread _ List.mem_cons_self) hinf)
  | identifier name => exact .identifier (hnamed name List.mem_cons_self)
  | group _ ih =>
    exact .group (ih (hread.mono fun t ht => by simp [ht]) hplain hnamed)
  | @call name inner args hdepth hinner =>
    refine .call (hread _ List.mem_cons_self) fun arg harg => ?_
    have hinner' : AreRead inner := hread.mono fun t ht => by simp [ht]
    have hplain' := Expr.isPlain_of_mem hplain harg
    cases hinner with
    | none => cases harg
    | some _ _ _ hall =>
      obtain ⟨s, hs, htree⟩ := exists_of_forall₂ hall harg
      cases htree with
      | tree hparse =>
        exact hargs s arg hdepth hparse (hinner'.mono (isInfix_intercalate _ hs).subset) hplain'
          fun name hname => hnamed name (Expr.mem_namesOfAll harg hname)
      | invalid _ _ =>
        -- an argument that is left as tokens is not plain
        cases hplain'
  | minus _ ih => exact .negate (ih (hread.mono (List.subset_cons_self _ _)) hplain hnamed)
  | plus _ ih => exact ih (hread.mono (List.subset_cons_self _ _)) hplain hnamed
  | binary hop _ _ ihl ihr =>
    rw [Expr.isPlain, Bool.and_eq_true] at hplain
    refine .binary hop (ihl (hread.mono fun t ht => by simp [ht]) hplain.1 ?_)
      (ihr (hread.mono fun t ht => by simp [ht]) hplain.2 ?_)
    · exact fun name hname => hnamed name (List.mem_append_left _ hname)
    · exact fun name hname => hnamed name (List.mem_append_right _ hname)
  | lift _ ih => exact .lift (ih hread hplain hnamed)

theorem built_of_parseTokens {depth : Nat} {ts : List Token} {e : Expr}
    (h : parseTokens l depth ts = .ok e) (hread : AreRead ts) (hplain : e.isPlain = true)
    (hnamed : ∀ name ∈ e.names, named name) : Built named .comparison e := by
  -- the levels inside calls are nested less deeply below the limit
  induction hn : l.maxDepth - depth generalizing depth ts e with
  | zero =>
    refine built_of_derives (fun us e' hdepth => ?_) (derives_of_parseTokens h)
      (hread.mono (firstItems_isPrefix _ _).subset) hplain hnamed
    omega
  | succ n ih =>
    refine built_of_derives (fun us e' hdepth hparse hread' hplain' hnamed' => ?_)
      (derives_of_parseTokens h) (hread.mono (firstItems_isPrefix _ _).subset) hplain hnamed
    exact ih hparse hread' hplain' hnamed' (by omega)

/-- **The trees of formulas are built tier by tier**, where all their arguments are expressions. -/
theorem built_of_parse {formula : String} {e : Expr} (h : parse l formula = .ok e)
    (hplain : e.isPlain = true) (hnamed : ∀ name ∈ e.names, named name) :
    Built named .comparison e := by
  unfold parse parseChars at h
  split at h
  · split_ifs at h with hlength
    split at h
    · cases h
    · refine built_of_parseTokens h (fun t ht => ?_) hplain hnamed
      exact isRead_of_mem_tokensOf ht
  · cases h

end SheetTemplate.Formula
