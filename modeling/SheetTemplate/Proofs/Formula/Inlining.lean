import SheetTemplate.Formula.Eval
import SheetTemplate.Proofs.Formula.Cutting
import SheetTemplate.Proofs.Formula.Room
import Mathlib.Logic.Function.Basic

/-!
# Inlining a formula

A name may be replaced by a formula in parentheses wherever it is not called. On trees this is a
substitution (`Expr.subst`), and the value of the result is the value of the tree in which the name
stands for the value of the formula (`Expr.eval_subst`). On tokens it is `inline`: the tokens that
derive a tree become tokens that derive its substitution (`derives_inline`), since a group is an
operand as a name is. Neither of them lets a signed number follow, so the tokens are read again
where they are written out with spaces between them (`standInText_inline`), and the text has the
value that it should have (`evaluate_inlined`).
-/

namespace SheetTemplate.Formula

/-! ### Trees -/

namespace Expr

mutual

/-- Replace the names of a tree by trees. -/
def subst (trees : String → Expr) : Expr → Expr
  | number x => number x
  | identifier name => trees name
  | binary op left right => binary op (left.subst trees) (right.subst trees)
  | negate operand => negate (operand.subst trees)
  | group inner => group (inner.subst trees)
  | call name args => call name (substAll trees args)
  | invalid tokens => invalid tokens

/-- Replace the names of some trees by trees. -/
def substAll (trees : String → Expr) : List Expr → List Expr
  | [] => []
  | e :: es => e.subst trees :: substAll trees es

end

theorem substAll_eq_map (trees : String → Expr) (es : List Expr) :
    substAll trees es = es.map (subst trees) := by
  induction es with
  | nil => rfl
  | cons e es ih => rw [substAll, ih, List.map_cons]

mutual

/-- **Substitution is a change of the values of names.** -/
theorem eval_subst (value : String → Float) (trees : String → Expr) (e : Expr) :
    (e.subst trees).eval value = e.eval fun name => (trees name).eval value := by
  cases e with
  | number x => rfl
  | identifier name => rfl
  | binary op left right =>
    rw [subst, eval, eval, eval_subst value trees left, eval_subst value trees right]
  | negate operand => rw [subst, eval, eval, eval_subst value trees operand]
  | group inner => rw [subst, eval, eval, eval_subst value trees inner]
  | call name args => rw [subst, eval, eval, evalAll_substAll value trees args]
  | invalid tokens => rfl

theorem evalAll_substAll (value : String → Float) (trees : String → Expr) (es : List Expr) :
    evalAll value (substAll trees es) = evalAll (fun name => (trees name).eval value) es := by
  cases es with
  | nil => rfl
  | cons e es =>
    rw [substAll, evalAll, evalAll, eval_subst value trees e, evalAll_substAll value trees es]

end

/-- A name stands for a tree in parentheses, all others for themselves. -/
def grouped (x : String) (g : Expr) : String → Expr := Function.update identifier x (group g)

theorem eval_grouped (value : String → Float) (x : String) (g : Expr) (name : String) :
    (grouped x g name).eval value = Function.update value x (g.eval value) name := by
  by_cases hname : name = x
  · subst hname
    rw [grouped, Function.update_self, Function.update_self, eval]
  · rw [grouped, Function.update_of_ne hname, Function.update_of_ne hname, eval]

end Expr

theorem Scope.read_insert (s : Scope) (x : String) (v : Float) :
    Scope.read (s.insert x v) = Function.update s.read x v := by
  funext name
  by_cases hname : name = x
  · rw [Scope.read, NameMap.get?_insert, if_pos hname, hname, Function.update_self]
    rfl
  · rw [Scope.read, NameMap.get?_insert, if_neg hname, Function.update_of_ne hname, Scope.read]

/-! ### Tokens -/

/-- What stands in the place of a token, where `opens` tells whether an opening parenthesis follows
it: some tokens in parentheses if it is the name that is replaced, and itself otherwise. -/
def Token.inlined (x : String) (gs : List Token) (opens : Bool) : Token → List Token
  | identifier name =>
    if name = x ∧ opens = false then openParen :: (gs ++ [closeParen]) else [identifier name]
  | t => [t]

/-- Replace a name by some tokens in parentheses, where it is not called. -/
def inline (x : String) (gs : List Token) : List Token → List Token
  | [] => []
  | t :: ts => t.inlined x gs (opens ts) ++ inline x gs ts

variable {x : String} {gs : List Token}

theorem Token.inlined_eq (x : String) (gs : List Token) (o : Bool) (t : Token) :
    t.inlined x gs o = [t] ∨
      t = .identifier x ∧ o = false ∧ t.inlined x gs o = .openParen :: (gs ++ [.closeParen]) := by
  cases t with
  | identifier name =>
    rw [inlined]
    split_ifs with h
    · exact .inr ⟨by rw [h.1], h.2, rfl⟩
    · exact .inl rfl
  | _ => exact .inl rfl

theorem inline_cons {t : Token} (ht : ∀ name, t ≠ .identifier name) (ts : List Token) :
    inline x gs (t :: ts) = t :: inline x gs ts := by
  cases t with
  | identifier name => exact absurd rfl (ht name)
  | _ => rfl

theorem inline_name_open (name : String) (ts : List Token) :
    inline x gs (.identifier name :: .openParen :: ts) =
      .identifier name :: .openParen :: inline x gs ts := by
  rw [inline, Token.inlined, if_neg fun h => Bool.noConfusion h.2,
    inline_cons fun name => Token.noConfusion]
  rfl

theorem inline_append {us : List Token} (h : opens us = false) (ts : List Token) :
    inline x gs (ts ++ us) = inline x gs ts ++ inline x gs us := by
  induction ts with
  | nil => rfl
  | cons t ts ih => rw [List.cons_append, inline, opens_append h, ih, inline, List.append_assoc]

theorem inline_intercalate (segs : List (List Token)) :
    inline x gs ([Token.comma].intercalate segs) =
      [Token.comma].intercalate (segs.map (inline x gs)) := by
  induction segs with
  | nil => rfl
  | cons s segs ih =>
    cases segs with
    | nil => rw [List.map_singleton, List.intercalate_singleton, List.intercalate_singleton]
    | cons s' segs =>
      rw [List.map_cons, List.map_cons, List.intercalate_cons_cons, List.intercalate_cons_cons,
        ← List.map_cons, ← ih, List.append_assoc, List.append_assoc, inline_append rfl,
        List.singleton_append, inline_cons fun name => Token.noConfusion, List.singleton_append]

theorem length_inlined_pos (o : Bool) (t : Token) : 0 < (t.inlined x gs o).length := by
  rcases t.inlined_eq x gs o with h | ⟨-, -, h⟩ <;> rw [h] <;> exact Nat.succ_pos _

theorem inline_ne_nil {ts : List Token} (h : ts ≠ []) : inline x gs ts ≠ [] := by
  cases ts with
  | nil => exact absurd rfl h
  | cons t ts =>
    rw [inline]
    exact List.append_ne_nil_of_left_ne_nil (List.ne_nil_of_length_pos (length_inlined_pos _ t)) _

theorem length_inline_le (ts : List Token) :
    (inline x gs ts).length ≤ ts.length * (gs.length + 2) := by
  induction ts with
  | nil => exact Nat.zero_le _
  | cons t ts ih =>
    have ht : (t.inlined x gs (opens ts)).length ≤ gs.length + 2 := by
      rcases t.inlined_eq x gs (opens ts) with h | ⟨-, -, h⟩ <;> rw [h] <;> simp
    rw [inline, List.length_append, List.length_cons, Nat.succ_mul, Nat.add_comm (_ * _)]
    exact Nat.add_le_add ht ih

/-! ### Levels -/

variable {l : Limits} {depth : Nat} {eg : Expr}

/-- Arguments become arguments where their segments become segments that are read. -/
theorem arguments_inline {inner : List Token} {args : List Expr} (h : Arguments l depth inner args)
    (hargs : ∀ seg arg, arg ∈ args → seg.length ≤ inner.length → ArgumentTree l depth seg arg →
      Segment (inline x gs seg) ∧
        ArgumentTree l depth (inline x gs seg) (arg.subst (.grouped x eg))) :
    Arguments l depth (inline x gs inner) (args.map (Expr.subst (.grouped x eg))) := by
  cases h with
  | none => exact .none
  | @some segs args hne _ hnil hall =>
    have hall' : List.Forall₂ (fun seg arg => Segment (inline x gs seg) ∧
        ArgumentTree l depth (inline x gs seg) (arg.subst (.grouped x eg))) segs args := by
      refine List.forall₂_iff_zip.2 ⟨hall.length_eq, fun {seg arg} hmem => ?_⟩
      obtain ⟨hseg, harg⟩ := List.of_mem_zip hmem
      exact hargs seg arg harg (isInfix_intercalate _ hseg).length_le (List.forall₂_zip hall hmem)
    rw [inline_intercalate]
    refine .some (List.map_eq_nil_iff.not.2 hne) (fun s hs => ?_) ?_ ?_
    · obtain ⟨seg, hseg, rfl⟩ := List.mem_map.1 hs
      obtain ⟨arg, -, hsegment, -⟩ := exists_of_forall₂ hall'.flip hseg
      exact hsegment
    · rw [← inline_intercalate]
      exact inline_ne_nil hnil
    · rw [List.forall₂_map_left_iff, List.forall₂_map_right_iff]
      exact hall'.imp fun _ _ h => h.2

/-- **The tokens of a tree become tokens of its substitution** where those of its arguments do. -/
theorem derives_inline_of_arguments {n : Nat} {t : Tier} {ts : List Token} {e : Expr}
    (hg : Derives l depth .comparison gs eg) (hroom : n * (gs.length + 2) ≤ l.maxTokens)
    (hargs : ∀ seg arg, seg.length < n → arg.isPlain = true →
      Derives l (depth + 1) .comparison seg arg →
        Derives l (depth + 1) .comparison (inline x gs seg) (arg.subst (.grouped x eg)))
    (h : Derives l depth t ts e) (hplain : e.isPlain = true) (hlength : ts.length ≤ n) :
    Derives l depth t (inline x gs ts) (e.subst (.grouped x eg)) := by
  induction h with
  | number y => exact .number y
  | identifier name =>
    by_cases hname : name = x
    · rw [inline, Token.inlined, if_pos ⟨hname, rfl⟩, inline, List.append_nil, Expr.subst,
        Expr.grouped, hname, Function.update_self]
      exact .group hg
    · rw [inline, Token.inlined, if_neg fun h => hname h.1, Expr.subst, Expr.grouped,
        Function.update_of_ne hname]
      exact .identifier name
  | @group ts e _ ih =>
    rw [List.length_cons, List.length_append] at hlength
    rw [inline_cons fun name => Token.noConfusion, inline_append rfl]
    exact .group (ih hplain (by omega))
  | @call name inner args hdepth hinner =>
    rw [List.length_cons, List.length_cons, List.length_append] at hlength
    rw [inline_name_open, inline_append rfl, Expr.subst, Expr.substAll_eq_map]
    refine .call hdepth (arguments_inline hinner fun seg arg harg hle htree => ?_)
    cases htree with
    | invalid _ _ => cases Expr.isPlain_of_mem hplain harg
    | tree hparse =>
      have hlt : seg.length < n := by omega
      have hbound : seg.length * (gs.length + 2) ≤ l.maxTokens :=
        (Nat.mul_le_mul_right _ hlt.le).trans hroom
      have htokens : seg.length ≤ l.maxTokens :=
        (Nat.le_mul_of_pos_right _ (Nat.succ_pos _)).trans hbound
      have hder := hargs seg arg hlt (Expr.isPlain_of_mem hplain harg)
        ((parseTokens_eq_ok_iff_derives htokens).1 hparse)
      refine ⟨segment_of_derives hder, .tree ?_⟩
      exact (parseTokens_eq_ok_iff_derives ((length_inline_le seg).trans hbound)).2 hder
  | @minus ts e _ ih =>
    rw [inline_cons fun name => Token.noConfusion]
    exact .minus (ih hplain (Nat.le_of_succ_le hlength))
  | @plus ts e _ ih =>
    rw [inline_cons fun name => Token.noConfusion]
    exact .plus (ih hplain (Nat.le_of_succ_le hlength))
  | @binary t op ts us left right hop _ _ ihl ihr =>
    rw [Expr.isPlain, Bool.and_eq_true] at hplain
    rw [List.length_append, List.length_cons] at hlength
    rw [inline_append rfl, inline_cons fun name => Token.noConfusion]
    exact .binary hop (ihl hplain.1 (by omega)) (ihr hplain.2 (by omega))
  | lift _ ih => exact .lift (ih hplain hlength)

/-- **The tokens of a tree become tokens of its substitution**, where the tokens that are put in
derive a tree inside as many calls as there are around them. -/
theorem derives_inline {bound : Nat} {t : Tier} {ts : List Token} {e : Expr}
    (hg : ∀ d ≤ bound, Derives l d .comparison gs eg)
    (hroom : bound * (gs.length + 2) ≤ l.maxTokens) (h : Derives l depth t ts e)
    (hplain : e.isPlain = true) (hdepth : depth + ts.length ≤ bound) :
    Derives l depth t (inline x gs ts) (e.subst (.grouped x eg)) := by
  -- on the length, as the arguments of a call are shorter than the level it stands on
  induction hn : ts.length using Nat.strongRecOn generalizing depth t ts e with
  | _ n ih =>
    subst hn
    have hroom' : ts.length * (gs.length + 2) ≤ l.maxTokens :=
      (Nat.mul_le_mul_right _ (by omega)).trans hroom
    refine derives_inline_of_arguments (hg depth (by omega)) hroom' ?_ h hplain le_rfl
    intro seg arg hlt hplain' h'
    exact ih seg.length hlt h' hplain' (by omega) rfl

/-! ### Texts -/

theorem mem_inline {t : Token} {ts : List Token} (h : t ∈ inline x gs ts) :
    t ∈ ts ∨ t ∈ gs ∨ t = .openParen ∨ t = .closeParen := by
  induction ts with
  | nil => cases h
  | cons u ts ih =>
    rw [inline, List.mem_append] at h
    rcases h with h | h
    · rcases u.inlined_eq x gs (opens ts) with hu | ⟨-, -, hu⟩ <;> rw [hu] at h
      · exact .inl (List.mem_singleton.1 h ▸ List.mem_cons_self)
      · simp only [List.mem_cons, List.mem_append, List.not_mem_nil, or_false] at h
        exact .inr (or_left_comm.1 h)
    · exact (ih h).imp_left (List.mem_cons_of_mem _)

/-- A number is the first token only where it was before. -/
theorem head?_of_head?_inline {ts : List Token} {y : Float}
    (h : (inline x gs ts).head? = some (.number y)) : ts.head? = some (.number y) := by
  cases ts with
  | nil => cases h
  | cons t ts =>
    rcases t.inlined_eq x gs (opens ts) with ht | ⟨-, -, ht⟩ <;> rw [inline, ht] at h
    · exact h
    · cases h

/-- A group lets a signed number follow where the name does, which is nowhere. -/
theorem precedesOperand_getLast?_inlined {t u : Token} {o : Bool}
    (h : (t.inlined x gs o).getLast? = some u) : u.precedesOperand = t.precedesOperand := by
  rcases t.inlined_eq x gs o with ht | ⟨rfl, -, ht⟩ <;> rw [ht] at h
  · cases h
    rfl
  · rw [← List.cons_append, List.getLast?_concat] at h
    cases h
    rfl

theorem isChain_inlined {t : Token} {o : Bool} (h : gs.IsChain SignAllowed) :
    (t.inlined x gs o).IsChain SignAllowed := by
  rcases t.inlined_eq x gs o with ht | ⟨-, -, ht⟩ <;> rw [ht]
  · exact .singleton _
  · refine .cons (List.isChain_append.2 ⟨h, .singleton _, ?_⟩) ?_
    · rintro u - v ⟨⟩ y ⟨⟩
    · exact fun _ _ _ _ _ => rfl

theorem isChain_inline {ts : List Token} (h : ts.IsChain SignAllowed)
    (hg : gs.IsChain SignAllowed) : (inline x gs ts).IsChain SignAllowed := by
  induction ts with
  | nil => exact .nil
  | cons t ts ih =>
    refine List.isChain_append.2 ⟨isChain_inlined hg, ih h.tail, ?_⟩
    rintro u hu v hv y rfl hsigned
    rw [precedesOperand_getLast?_inlined hu]
    exact h.rel_head? (head?_of_head?_inline hv) y rfl hsigned

theorem standInText_inline {ts : List Token} (h : StandInText ts) (hg : StandInText gs) :
    StandInText (inline x gs ts) where
  read := by
    intro t ht
    rcases mem_inline ht with ht | ht | rfl | rfl
    · exact h.read t ht
    · exact hg.read t ht
    · trivial
    · trivial
  finite := by
    intro t ht
    rcases mem_inline ht with ht | ht | rfl | rfl
    · exact h.finite t ht
    · exact hg.finite t ht
    · rfl
    · rfl
  signs := isChain_inline h.signs hg.signs

/-- The tokens of a formula. -/
def tokensOfFormula (formula : String) : List Token := tokensIn true formula.toList.tail

/-- A formula with a name replaced by another formula in parentheses, where the name is not called,
and with spaces between all tokens. -/
def inlined (x g formula : String) : String :=
  "=" ++ String.ofList (spaced (inline x (tokensOfFormula g) (tokensOfFormula formula)))

/-- Spaces stand between all tokens, also where there were none. -/
example : inlined "a" "=b-2" "=2*a-a(1)" = "=2 * ( b - 2 ) - a ( 1 )" := by decide +kernel

theorem tokensOfFormula_eq (cs : List Char) :
    tokensOfFormula ("=" ++ String.ofList cs) = tokensIn true cs := by
  rw [tokensOfFormula, toList_formula, List.tail_cons]

/-- Under limits with room for everything, the tokens of a formula with another one put in are read
as the substitution of its tree. -/
theorem parseTokens_inline {n : Nat} {ts : List Token} {e : Expr}
    (hdepth : ts.length + gs.length ≤ n) (hroom : ts.length * (gs.length + 2) ≤ n)
    (hg : parseTokens (.above n) 0 gs = .ok eg) (h : parseTokens (.above n) 0 ts = .ok e)
    (hplain : e.isPlain = true) :
    parseTokens (.above n) 0 (inline x gs ts) = .ok (e.subst (.grouped x eg)) := by
  have htokens : ts.length ≤ n + 1 := by omega
  have hbound : ts.length * (gs.length + 2) ≤ (Limits.above n).maxTokens :=
    hroom.trans (Nat.le_succ n)
  have hinside : ∀ d ≤ ts.length, Derives (.above n) d .comparison gs eg := by
    intro d hd
    have htop : (Limits.above n).HasRoom 0 gs.length := Limits.hasRoom_above (by omega)
    have hinner : (Limits.above n).HasRoom d gs.length := Limits.hasRoom_above (by omega)
    rw [parseTokens_eq_of_hasRoom htop hinner] at hg
    exact (parseTokens_eq_ok_iff_derives hinner.tokens).1 hg
  rw [parseTokens_eq_ok_iff_derives ((length_inline_le ts).trans hbound)]
  exact derives_inline hinside hbound ((parseTokens_eq_ok_iff_derives htokens).1 h) hplain
    (Nat.zero_add _).le

/-- **Inlining a formula in parentheses preserves meaning.** -/
theorem evaluate_inlined {f g : String} {e eg : Expr} (hf : parse l f = .ok e)
    (hg : parse l g = .ok eg) (hplain : e.isPlain = true)
    (hfinite : ∀ t ∈ tokensOfFormula f, t.isFinite = true)
    (hfinite' : ∀ t ∈ tokensOfFormula g, t.isFinite = true) (hfl : Unreached l f)
    (hgl : Unreached l g) (hl : Unreached l (inlined x g f)) :
    (∃ e', parse l (inlined x g f) = .ok e') ∧
      ∀ s : Scope, evaluate l s (inlined x g f) = evaluate l (s.insert x (evaluate l s g)) f := by
  obtain ⟨cs, rfl⟩ := exists_eq_formula (by rw [hf]; exact nofun)
  obtain ⟨ds, rfl⟩ := exists_eq_formula (by rw [hg]; exact nofun)
  rw [tokensOfFormula_eq] at hfinite hfinite'
  rw [inlined, tokensOfFormula_eq, tokensOfFormula_eq] at hl ⊢
  have hstand := standInText_inline (x := x) (standInText_tokensIn hfinite)
    (standInText_tokensIn hfinite')
  -- one limit with room for all three texts and for the tokens of the last
  obtain ⟨n, hcs, hds, htext, hdepth, hroom⟩ : ∃ n, cs.length < n ∧ ds.length < n ∧
      (spaced (inline x (tokensIn true ds) (tokensIn true cs))).length < n ∧
      (tokensIn true cs).length + (tokensIn true ds).length ≤ n ∧
      (tokensIn true cs).length * ((tokensIn true ds).length + 2) ≤ n := by
    refine ⟨cs.length + ds.length + (spaced (inline x (tokensIn true ds) (tokensIn true cs))).length
      + ((tokensIn true cs).length + (tokensIn true ds).length)
      + (tokensIn true cs).length * ((tokensIn true ds).length + 2) + 1, ?_⟩
    omega
  have hinlined : parse l ("=" ++ String.ofList (spaced
      (inline x (tokensIn true ds) (tokensIn true cs)))) = .ok (e.subst (.grouped x eg)) := by
    rw [hl.parse_eq_ok_iff htext, tokensIn_spaced hstand fun _ _ _ => rfl]
    exact parseTokens_inline hdepth hroom ((hgl.parse_eq_ok_iff hds).1 hg)
      ((hfl.parse_eq_ok_iff hcs).1 hf) hplain
  refine ⟨⟨_, hinlined⟩, fun s => ?_⟩
  have hvalue : (fun name => (Expr.grouped x eg name).eval s.read) =
      Scope.read (s.insert x (eg.eval s.read)) := by
    rw [Scope.read_insert]
    exact funext (Expr.eval_grouped s.read x eg)
  simp only [evaluate, hinlined, hf, hg, Expr.eval_subst, hvalue]

/-- A name behind a minus, in a group, among the arguments of a nested call and in front of a
parenthesis. -/
theorem evaluate_inlined_calls :
    let l := Limits.above 250
    let f := "=-a -3 * (a < max(2; min(a, -a)) + a(1))"
    let g := "=b - 2 > sum(3 4; - 5)"
    let h := inlined "a" g f
    (∃ e eg, parse l f = .ok e ∧ parse l g = .ok eg ∧ e.isPlain = true) ∧
      ((∀ t ∈ tokensOfFormula f, t.isFinite = true) ∧
        (∀ t ∈ tokensOfFormula g, t.isFinite = true)) ∧
      (Unreached l f ∧ Unreached l g ∧ Unreached l h) ∧
      (∃ e', parse l h = .ok e') ∧
      ∀ s : Scope, evaluate l s h = evaluate l (s.insert "a" (evaluate l s g)) f := by
  intro l f g h
  have hparse : ∃ e eg, parse (.above 250) "=-a -3 * (a < max(2; min(a, -a)) + a(1))" = .ok e ∧
      parse (.above 250) "=b - 2 > sum(3 4; - 5)" = .ok eg ∧ e.isPlain = true :=
    ⟨_, _, rfl, rfl, rfl⟩
  have hfinite : ∀ t ∈ tokensOfFormula f, t.isFinite = true := by decide +kernel
  have hfinite' : ∀ t ∈ tokensOfFormula g, t.isFinite = true := by decide +kernel
  have hf : Unreached l f := unreached_of_exceed (Limits.exceed_above (by decide))
  have hg : Unreached l g := unreached_of_exceed (Limits.exceed_above (by decide))
  have hh : Unreached l h := unreached_of_exceed (Limits.exceed_above (by decide +kernel))
  refine ⟨hparse, ⟨hfinite, hfinite'⟩, ⟨hf, hg, hh⟩, ?_⟩
  obtain ⟨e, eg, he, heg, hplain⟩ := hparse
  exact evaluate_inlined he heg hplain hfinite hfinite' hf hg hh

end SheetTemplate.Formula
