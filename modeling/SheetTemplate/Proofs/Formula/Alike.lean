import SheetTemplate.Formula.Eval
import SheetTemplate.Proofs.Formula.Respelling
import SheetTemplate.Proofs.Formula.Room

/-!
# Two spellings are read alike

The parser reads two spellings of one formula step by step to the same end: trees that differ as the
spellings do (`Alike`), or the same fault (`ErrorAlike`). Between a minus sign and the literal that
it belongs to in the first spelling, the parser has one more waiting operator in the second; behind
the literal this makes no difference any more (`run_negate`). The arguments of calls are shorter
spellings of their own (`parseTokens_alike`).
-/

namespace SheetTemplate.Formula

/-- The trees of two spellings. -/
inductive Alike (σ : Style) : Expr → Expr → Prop
  | number (x : Float) : Alike σ (.number x) (.number x)
  | identifier (name : String) : Alike σ (.identifier name) (.identifier name)
  | binary {op : Operator} {l l' r r' : Expr} : Alike σ l l' → Alike σ r r' →
      Alike σ (.binary op l r) (.binary op l' r')
  | negate {e e' : Expr} : Alike σ e e' → Alike σ (.negate e) (.negate e')
  | group {e e' : Expr} : Alike σ e e' → Alike σ (.group e) (.group e')
  | call {args args' : List Expr} (name : String) : args.length = args'.length →
      (∀ {e e'}, (e, e') ∈ args.zip args' → Alike σ e e') →
      Alike σ (.call (σ.callName name) args) (.call name args')
  | invalid {ts us : List Token} : Respelled σ .operand ts us → Alike σ (.invalid ts) (.invalid us)
  | literal {x : Float} : IsLiteral x → Alike σ (.number (-x)) (.negate (.number x))

/-- The faults of two spellings: the same one, at the name of a call maybe under its other name. -/
inductive FaultAlike (σ : Style) : Fault → Fault → Prop
  | refl (fault : Fault) : FaultAlike σ fault fault
  | unclosedCall (name : String) :
      FaultAlike σ (.unclosedCall (σ.callName name)) (.unclosedCall name)
  | missingOperatorBefore (name : String) :
      FaultAlike σ (.missingOperatorBefore (.identifier (σ.callName name)))
        (.missingOperatorBefore (.identifier name))

/-- The errors of two spellings. -/
inductive ErrorAlike (σ : Style) : Error → Error → Prop
  | refl (err : Error) : ErrorAlike σ err err
  | malformed {fault fault' : Fault} : FaultAlike σ fault fault' →
      ErrorAlike σ (.malformed fault) (.malformed fault')

theorem ErrorAlike.exists_fault {σ : Style} {err : Error} {fault : Fault}
    (h : ErrorAlike σ err (.malformed fault)) : ∃ fault', err = .malformed fault' := by
  cases h with
  | refl _ => exact ⟨fault, rfl⟩
  | malformed _ => exact ⟨_, rfl⟩

/-- Both results are errors, or both are values that a relation holds of. -/
inductive ResultAlike {α β : Type} (σ : Style) (R : α → β → Prop) :
    Except Error α → Except Error β → Prop
  | ok {a : α} {b : β} : R a b → ResultAlike σ R (.ok a) (.ok b)
  | error {err err' : Error} : ErrorAlike σ err err' → ResultAlike σ R (.error err) (.error err')

variable {σ : Style}

theorem fail_alike {α β : Type} {R : α → β → Prop} (fault : Fault) :
    ResultAlike σ R (fail fault) (fail fault) :=
  .error (.refl _)

/-- Two results that are alike are both errors or both values. -/
theorem ResultAlike.elim {α β : Type} {R : α → β → Prop} {r : Except Error α}
    {r' : Except Error β} (h : ResultAlike σ R r r') :
    (∃ err err', r = .error err ∧ r' = .error err' ∧ ErrorAlike σ err err') ∨
      ∃ a b, r = .ok a ∧ r' = .ok b ∧ R a b := by
  cases h with
  | error herr => exact .inl ⟨_, _, rfl, rfl, herr⟩
  | ok hab => exact .inr ⟨_, _, rfl, rfl, hab⟩

/-! ### Operators that wait -/

theorem reduce_alike (p : Pending) {out out' : List Expr} (h : List.Forall₂ (Alike σ) out out') :
    ResultAlike σ (List.Forall₂ (Alike σ)) (reduce p out) (reduce p out') := by
  cases p with
  | binary op =>
    cases h with
    | nil => exact fail_alike _
    | cons hr h =>
      cases h with
      | nil => exact fail_alike _
      | cons hl h => exact .ok (.cons (.binary hl hr) h)
  | negate =>
    cases h with
    | nil => exact fail_alike _
    | cons he h => exact .ok (.cons (.negate he) h)
  | group => exact fail_alike _

/-- The same operators still wait, and the operands are alike. -/
def StacksAlike (σ : Style) (a b : List Pending × List Expr) : Prop :=
  a.1 = b.1 ∧ List.Forall₂ (Alike σ) a.2 b.2

theorem reduceFor_alike (op : Operator) (ps : List Pending) {out out' : List Expr}
    (h : List.Forall₂ (Alike σ) out out') :
    ResultAlike σ (StacksAlike σ) (reduceFor op ps out) (reduceFor op ps out') := by
  induction ps generalizing out out' with
  | nil => exact .ok ⟨rfl, h⟩
  | cons p ps ih =>
    rw [reduceFor, reduceFor]
    split_ifs
    · rcases (reduce_alike p h).elim with ⟨_, _, hr, hr', herr⟩ | ⟨_, _, hr, hr', hout⟩
      · rw [hr, hr']
        exact .error herr
      · rw [hr, hr']
        exact ih hout
    · exact .ok ⟨rfl, h⟩

theorem reduceGroup_alike (ps : List Pending) {out out' : List Expr}
    (h : List.Forall₂ (Alike σ) out out') :
    ResultAlike σ (StacksAlike σ) (reduceGroup ps out) (reduceGroup ps out') := by
  induction ps generalizing out out' with
  | nil => exact fail_alike _
  | cons p ps ih =>
    by_cases hp : p = .group
    · subst hp
      cases h with
      | nil => exact fail_alike _
      | cons he h => exact .ok ⟨rfl, .cons (.group he) h⟩
    · rw [reduceGroup_cons hp, reduceGroup_cons hp]
      rcases (reduce_alike p h).elim with ⟨_, _, hr, hr', herr⟩ | ⟨_, _, hr, hr', hout⟩
      · rw [hr, hr']
        exact .error herr
      · rw [hr, hr']
        exact ih hout

theorem reduceAll_alike (ps : List Pending) {out out' : List Expr}
    (h : List.Forall₂ (Alike σ) out out') :
    ResultAlike σ (List.Forall₂ (Alike σ)) (reduceAll ps out) (reduceAll ps out') := by
  induction ps generalizing out out' with
  | nil => exact .ok h
  | cons p ps ih =>
    by_cases hp : p = .group
    · subst hp
      exact fail_alike _
    · rw [reduceAll_cons hp, reduceAll_cons hp]
      rcases (reduce_alike p h).elim with ⟨_, _, hr, hr', herr⟩ | ⟨_, _, hr, hr', hout⟩
      · rw [hr, hr']
        exact .error herr
      · rw [hr, hr']
        exact ih hout

/-! ### Items -/

/-- What waits in the second spelling only. -/
def Position.pending : Position → List Pending
  | minus => [.negate]
  | operand | operator => []

/-- The states of the parser at the same place of two spellings. -/
inductive YardAlike (σ : Style) (p : Position) : Yard → Yard → Prop
  | mk {out out' : List Expr} (ps : List Pending) : List.Forall₂ (Alike σ) out out' →
      YardAlike σ p ⟨out, ps, p.expectsOperand⟩ ⟨out', p.pending ++ ps, p.expectsOperand⟩

theorem finish_alike {p : Position} {y y' : Yard} (h : YardAlike σ p y y') (hp : p ≠ .minus) :
    ResultAlike σ (Alike σ) y.finish y'.finish := by
  obtain ⟨ps, h⟩ := h
  cases p with
  | operand => exact fail_alike _
  | minus => exact absurd rfl hp
  | operator =>
    simp only [Yard.finish, Position.expectsOperand, Position.pending, List.nil_append,
      Bool.false_eq_true, if_false]
    rcases (reduceAll_alike ps h).elim with ⟨_, _, hr, hr', herr⟩ | ⟨_, _, hr, hr', hout⟩
    · rw [hr, hr']
      exact .error herr
    · rw [hr, hr']
      cases hout with
      | nil => exact fail_alike _
      | cons he hrest =>
        cases hrest with
        | nil => exact .ok he
        | cons _ _ => exact fail_alike _

theorem token_alike {p : Position} {y y' : Yard} {t : Token} (h : YardAlike σ p y y')
    (hp : p ≠ .minus) (ht : ∀ name, t ≠ .identifier name) (opens opens' : Bool) :
    ResultAlike σ (YardAlike σ (.after t)) (y.token opens t) (y'.token opens' t) := by
  obtain ⟨ps, h⟩ := h
  cases p with
  | minus => exact absurd rfl hp
  | operand =>
    cases t with
    | number x => exact .ok (.mk ps (.cons (.number x) h))
    | identifier name => exact absurd rfl (ht name)
    | operator op =>
      cases op with
      | add => exact .ok (.mk ps h)
      | sub => exact .ok (.mk (.negate :: ps) h)
      | _ => exact fail_alike _
    | openParen => exact .ok (.mk (.group :: ps) h)
    | closeParen => exact fail_alike _
    | comma => exact fail_alike _
  | operator =>
    cases t with
    | identifier name => exact absurd rfl (ht name)
    | operator op =>
      simp only [Yard.token, Yard.operator, Position.expectsOperand, Position.pending,
        List.nil_append, Bool.false_eq_true, if_false]
      rcases (reduceFor_alike op ps h).elim with ⟨_, _, hr, hr', herr⟩ | ⟨a, b, hr, hr', hab⟩
      · rw [hr, hr']
        exact .error herr
      · rw [hr, hr']
        obtain ⟨ps', out⟩ := a
        obtain ⟨_, out'⟩ := b
        obtain ⟨rfl, hout⟩ := hab
        exact .ok (.mk (.binary op :: ps') hout)
    | closeParen =>
      simp only [Yard.token, Yard.close, Position.expectsOperand, Position.pending,
        List.nil_append, Bool.false_eq_true, if_false]
      rcases (reduceGroup_alike ps h).elim with ⟨_, _, hr, hr', herr⟩ | ⟨a, b, hr, hr', hab⟩
      · rw [hr, hr']
        exact .error herr
      · rw [hr, hr']
        obtain ⟨ps', out⟩ := a
        obtain ⟨_, out'⟩ := b
        obtain ⟨rfl, hout⟩ := hab
        exact .ok (.mk ps' hout)
    | _ => exact fail_alike _

/-- **A minus sign in front of an operand need not wait**, as every operator and every parenthesis
that follows makes it take the operand first. -/
theorem run_negate {call : String → List Token → Except Error Expr} (e : Expr) (out : List Expr)
    (ps : List Pending) (its : List Item) :
    Yard.run call ⟨e :: out, .negate :: ps, false⟩ its =
      Yard.run call ⟨.negate e :: out, ps, false⟩ its := by
  cases its with
  | nil => rfl
  | cons item its =>
    have hstep : ∀ opens, Yard.step call ⟨e :: out, .negate :: ps, false⟩ opens item =
        Yard.step call ⟨.negate e :: out, ps, false⟩ opens item := by
      intro opens
      cases item with
      | call name inner => rfl
      | token t => cases t <;> rfl
    rw [Yard.run, Yard.run, hstep]

section

variable {call call' : String → List Token → Except Error Expr}

/-- The calls of two spellings that are shorter than `n` are read alike. -/
def CallsAlike (σ : Style) (call call' : String → List Token → Except Error Expr) (n : Nat) :
    Prop :=
  ∀ name {inner inner' : List Token}, Balanced inner' → inner'.length < n →
    Respelled σ .operand inner inner' →
    ResultAlike σ (Alike σ) (call (σ.callName name) inner) (call' name inner')

/-- Two spellings that are shorter than `n` are read alike wherever they go on. -/
def RestsAlike (σ : Style) (call call' : String → List Token → Except Error Expr) (n : Nat) :
    Prop :=
  ∀ {p : Position} {ts us : List Token} {y y' : Yard}, us.length < n → Respelled σ p ts us →
    YardAlike σ p y y' →
      ResultAlike σ (Alike σ) (y.run call (itemsIn ts)) (y'.run call' (itemsIn us))

/-- A name that is not called. -/
theorem run_name_alike {p : Position} {ts us : List Token} {y y' : Yard} (name : String)
    (hrest : RestsAlike σ call call' (us.length + 1)) (hp : p ≠ .minus) (hopens : opens us = false)
    (h : Respelled σ .operator ts us) (hy : YardAlike σ p y y') :
    ResultAlike σ (Alike σ) (y.run call (itemsIn (.identifier name :: ts)))
      (y'.run call' (itemsIn (.identifier name :: us))) := by
  rw [itemsIn_name (h.opens_eq.trans hopens), itemsIn_name hopens, Yard.run, Yard.run,
    opensNext_itemsIn, opensNext_itemsIn, h.opens_eq, hopens]
  obtain ⟨ps, hout⟩ := hy
  cases p with
  | minus => exact absurd rfl hp
  | operand => exact hrest (Nat.lt_succ_self _) h (.mk ps (.cons (.identifier name) hout))
  | operator => exact fail_alike _

/-- A name in front of an opening parenthesis. -/
theorem run_call_alike {p : Position} {ts us : List Token} {y y' : Yard} (name : String)
    (hcall : CallsAlike σ call call' us.length) (hrest : RestsAlike σ call call' us.length)
    (hp : p ≠ .minus) (h : Respelled σ .operand ts us) (hy : YardAlike σ p y y') :
    ResultAlike σ (Alike σ)
      (y.run call (itemsIn (.identifier (σ.callName name) :: .openParen :: ts)))
      (y'.run call' (itemsIn (.identifier name :: .openParen :: us))) := by
  have hmissing : ErrorAlike σ
      (.malformed (.missingOperatorBefore (.identifier (σ.callName name))))
      (.malformed (.missingOperatorBefore (.identifier name))) :=
    .malformed (.missingOperatorBefore name)
  obtain ⟨ps, hout⟩ := hy
  rcases optionRel_elim (h.closing 0) with ⟨hts, hus⟩ | ⟨⟨a, r⟩, ⟨b, r'⟩, hts, hus, hparts⟩
  · -- a call that is not closed
    rw [itemsIn_unclosed hts, itemsIn_unclosed hus]
    cases p with
    | minus => exact absurd rfl hp
    | operand => exact .error (.malformed (.unclosedCall name))
    | operator => exact .error hmissing
  · -- a call
    rw [itemsIn_call hts, itemsIn_call hus, Yard.run, Yard.run]
    cases p with
    | minus => exact absurd rfl hp
    | operand =>
      obtain ⟨rfl, hbalanced⟩ := closing_eq_some_iff.1 hus
      have hlength : (b ++ Token.closeParen :: r').length = b.length + r'.length + 1 := by
        rw [List.length_append, List.length_cons, Nat.add_assoc]
      simp only [Yard.step, Position.expectsOperand, Position.pending, List.nil_append, if_true]
      rcases (hcall name hbalanced (by omega) hparts.1).elim with
        ⟨_, _, hr, hr', herr⟩ | ⟨_, _, hr, hr', he⟩
      · rw [hr, hr']
        exact .error herr
      · rw [hr, hr']
        exact hrest (by omega) hparts.2 (.mk ps (.cons he hout))
    | operator => exact .error hmissing

/-- **Two spellings of a level are read alike**, where calls are. -/
theorem run_alike {n : Nat} (hcall : CallsAlike σ call call' n) {p : Position}
    {ts us : List Token} {y y' : Yard} (hn : us.length ≤ n) (h : Respelled σ p ts us)
    (hy : YardAlike σ p y y') :
    ResultAlike σ (Alike σ) (y.run call (itemsIn ts)) (y'.run call' (itemsIn us)) := by
  -- on the tokens of the second spelling, as each rule of respelling takes up one of them at least
  induction hm : us.length using Nat.strongRecOn generalizing p ts us y y' with
  | _ m ih =>
    subst hm
    have hrest : RestsAlike σ call call' us.length := fun hlt h hy =>
      ih _ hlt (hlt.le.trans hn) h hy rfl
    cases h with
    | nil hp => exact finish_alike hy hp
    | @name _ ts us name hp h =>
      cases hopens : opens us with
      | false =>
        rw [if_neg Bool.false_ne_true]
        exact run_name_alike name hrest hp hopens h hy
      | true =>
        obtain ⟨us, rfl⟩ := exists_of_opens hopens
        obtain ⟨ts, rfl⟩ := exists_of_opens (h.opens_eq.trans hopens)
        rw [List.length_cons, List.length_cons] at hn
        rw [if_pos rfl]
        refine run_call_alike name ?_ ?_ hp h.of_openParen hy
        · exact fun name _ _ hinner hlt => hcall name hinner (by omega)
        · exact fun hlt => hrest (hlt.trans (Nat.lt_add_of_pos_right Nat.two_pos))
    | @token _ t ts us hp ht h =>
      rw [itemsIn_token ht, itemsIn_token ht, Yard.run, Yard.run]
      rcases (token_alike hy hp ht _ _).elim with ⟨_, _, hr, hr', herr⟩ | ⟨z, z', hr, hr', hz⟩
      · rw [Yard.step, Yard.step, hr, hr']
        exact .error herr
      · rw [Yard.step, Yard.step, hr, hr']
        exact hrest (Nat.lt_succ_self _) h hz
    | @plus _ _ us hdrops hp hstarts h =>
      rw [itemsIn_token fun name => Token.noConfusion, Yard.run]
      have hstep : ∀ opens, y'.step call' opens (.token (.operator .add)) = .ok y' := by
        intro opens
        obtain ⟨ps, hout⟩ := hy
        cases p with
        | operator => exact absurd rfl hp
        | _ => rfl
      rw [hstep]
      exact hrest (Nat.lt_succ_self _) h hy
    | @minus _ us h =>
      rw [itemsIn_token fun name => Token.noConfusion]
      obtain ⟨ps, hout⟩ := hy
      exact hrest (Nat.lt_succ_self _) h (.mk ps hout)
    | @literal x ts us hx h =>
      rw [itemsIn_token fun name => Token.noConfusion, itemsIn_token fun name => Token.noConfusion]
      obtain @⟨out, out', ps, hout⟩ := hy
      have hrun := hrest (Nat.lt_succ_self _) h (.mk ps (.cons (.literal hx) hout))
      have hnegate : Yard.run call' ⟨.number x :: out', .negate :: ps, false⟩ (itemsIn us) = _ :=
        run_negate (.number x) out' ps (itemsIn us)
      exact hnegate ▸ hrun

end

/-! ### Calls and levels -/

theorem parseArgument_alike {parse : List Token → Except Error Expr} {s s' : List Token}
    (h : ResultAlike σ (Alike σ) (parse s) (parse s')) (hs : Respelled σ .operand s s') :
    ResultAlike σ (Alike σ) (parseArgument parse s) (parseArgument parse s') := by
  rw [parseArgument, parseArgument]
  rcases h.elim with ⟨err, err', hr, hr', herr⟩ | ⟨_, _, hr, hr', he⟩
  · rw [hr, hr']
    cases herr with
    | refl err =>
      cases err with
      | tooDeep max => exact .error (.refl _)
      | _ => exact .ok (.invalid hs)
    | malformed _ => exact .ok (.invalid hs)
  · rw [hr, hr']
    exact .ok he

theorem parseArguments_alike {parse : List Token → Except Error Expr}
    {segs segs' : List (List Token)} (hsegs : List.Forall₂ (Respelled σ .operand) segs segs')
    (h : ∀ s s', s' ∈ segs' → Respelled σ .operand s s' →
      ResultAlike σ (Alike σ) (parse s) (parse s')) :
    ResultAlike σ (List.Forall₂ (Alike σ)) (parseArguments parse segs)
      (parseArguments parse segs') := by
  induction hsegs with
  | nil => exact .ok .nil
  | @cons s s' segs segs' hs _ ih =>
    rw [parseArguments, parseArguments]
    have harg := parseArgument_alike (h s s' List.mem_cons_self hs) hs
    have hargs := ih fun s s' hs' => h s s' (List.mem_cons_of_mem _ hs')
    rcases harg.elim with ⟨_, _, hr, hr', herr⟩ | ⟨_, _, hr, hr', he⟩
    · rw [hr, hr']
      exact .error herr
    · rw [hr, hr']
      rcases hargs.elim with ⟨_, _, hr, hr', herr⟩ | ⟨_, _, hr, hr', hes⟩
      · rw [hr, hr']
        exact .error herr
      · rw [hr, hr']
        exact .ok (.cons he hes)

theorem parseCall_alike {parse : List Token → Except Error Expr} (name : String)
    {inner inner' : List Token} (hinner : Respelled σ .operand inner inner')
    (h : ∀ s s', s' ∈ splitAtCommas 0 inner' → Respelled σ .operand s s' →
      ResultAlike σ (Alike σ) (parse s) (parse s')) :
    ResultAlike σ (Alike σ) (parseCall parse (σ.callName name) inner)
      (parseCall parse name inner') := by
  have hargs : ResultAlike σ (List.Forall₂ (Alike σ))
      (parseArguments parse (if inner = [] then [] else splitAtCommas 0 inner))
      (parseArguments parse (if inner' = [] then [] else splitAtCommas 0 inner')) := by
    by_cases hnil : inner' = []
    · rw [if_pos (hinner.eq_nil_iff.2 hnil), if_pos hnil]
      exact .ok .nil
    · rw [if_neg (mt hinner.eq_nil_iff.1 hnil), if_neg hnil]
      exact parseArguments_alike (hinner.splitAtCommas 0).forall₂ h
  rw [parseCall, parseCall]
  rcases hargs.elim with ⟨_, _, hr, hr', herr⟩ | ⟨_, _, hr, hr', hes⟩
  · rw [hr, hr']
    exact .error herr
  · rw [hr, hr']
    obtain ⟨hlength, hzip⟩ := List.forall₂_iff_zip.1 hes
    exact .ok (.call name hlength hzip)

/-- **Two spellings are read alike**, as trees or with the same fault. -/
theorem parseTokens_alike {l : Limits} {depth : Nat} {ts us : List Token}
    (h : Respelled σ .operand ts us) (hlength : us.length ≤ l.maxTokens) :
    ResultAlike σ (Alike σ) (parseTokens l depth ts) (parseTokens l depth us) := by
  -- on the length, as the arguments of a call are shorter than the level it stands on
  induction hn : us.length using Nat.strongRecOn generalizing depth ts us with
  | _ n ih =>
    subst hn
    rw [parseTokens_eq_run, parseTokens_eq_run, items_eq_itemsIn (h.length_le.trans hlength),
      items_eq_itemsIn hlength]
    refine run_alike (fun name {inner inner'} hbalanced hlt hinner => ?_) le_rfl h (.mk [] .nil)
    unfold readCall
    split_ifs
    · refine parseCall_alike name hinner fun s s' hs' hss' => ?_
      have hle := (isInfix_of_mem_splitAtCommas hbalanced hs').length_le
      exact ih _ (hle.trans_lt hlt) hss' ((hle.trans_lt hlt).le.trans hlength) rfl
    · exact .error (.refl _)

/-- Two texts whose tokens spell one formula are read alike. -/
theorem parseChars_alike {l : Limits} {cs cs' : List Char}
    (h : Respelled σ .operand (tokensIn true cs) (tokensIn true cs')) (hl : l.Exceed cs.length)
    (hl' : l.Exceed cs'.length) :
    ResultAlike σ (Alike σ) (parseChars l ('=' :: cs)) (parseChars l ('=' :: cs')) := by
  rw [parseChars_of_length_lt hl.length, parseChars_of_length_lt hl'.length]
  by_cases hnil : tokensIn true cs' = []
  · rw [if_pos (h.eq_nil_iff.2 hnil), if_pos hnil]
    exact .error (.refl _)
  · rw [if_neg (mt h.eq_nil_iff.1 hnil), if_neg hnil]
    exact parseTokens_alike h ((length_tokensIn_le true cs').trans hl'.tokens.le)

/-- **Two texts whose tokens spell one formula are read alike** under limits that neither of them
reaches. -/
theorem parse_alike {l : Limits} {cs cs' : List Char}
    (h : Respelled σ .operand (tokensIn true cs) (tokensIn true cs'))
    (hcs : Unreached l ("=" ++ String.ofList cs)) (hcs' : Unreached l ("=" ++ String.ofList cs')) :
    ResultAlike σ (Alike σ) (parse l ("=" ++ String.ofList cs))
      (parse l ("=" ++ String.ofList cs')) := by
  have htop : ∀ {n}, n ≤ cs.length + cs'.length + 1 →
      (Limits.above (cs.length + cs'.length + 1)).Exceed n := Limits.exceed_above
  have htext := length_formula cs
  have htext' := length_formula cs'
  rw [hcs.parse_eq (htop (by omega)), hcs'.parse_eq (htop (by omega)), parse_ofList, parse_ofList]
  exact parseChars_alike h (htop (by omega)) (htop (by omega))

/-! ### Values -/

theorem map_eq_map_of_zip {α β γ : Type} {f : α → γ} {g : β → γ} {as : List α} {bs : List β}
    (hlength : as.length = bs.length) (h : ∀ {a b}, (a, b) ∈ as.zip bs → f a = g b) :
    as.map f = bs.map g := by
  have hall : List.Forall₂ (· = ·) (as.map f) (bs.map g) := by
    rw [List.forall₂_map_left_iff, List.forall₂_map_right_iff]
    exact List.forall₂_iff_zip.2 ⟨hlength, h⟩
  rwa [List.forall₂_eq_eq_eq] at hall

theorem Expr.evalAll_eq_map (value : String → Float) (es : List Expr) :
    evalAll value es = es.map (eval value) := by
  induction es with
  | nil => rfl
  | cons e es ih => rw [evalAll, ih, List.map_cons]

/-- **Two spellings have the same value**, where both names of every call stand for one function. -/
theorem Alike.eval_eq (hσ : ∀ name, Function.call (σ.callName name) = Function.call name)
    (value : String → Float) {e e' : Expr} (h : Alike σ e e') : e.eval value = e'.eval value := by
  induction h with
  | number _ => rfl
  | identifier _ => rfl
  | binary _ _ ihl ihr => rw [Expr.eval, Expr.eval, ihl, ihr]
  | negate _ ih => exact congrArg Neg.neg ih
  | group _ ih => exact ih
  | @call args args' name hlength _ ih =>
    have hargs : args.map (Expr.eval value) = args'.map (Expr.eval value) :=
      map_eq_map_of_zip hlength ih
    rw [Expr.eval, Expr.eval, Expr.evalAll_eq_map, Expr.evalAll_eq_map, hargs, hσ]
  | invalid _ => rfl
  | literal _ => rfl

theorem evaluate_eq_of_alike (hσ : ∀ name, Function.call (σ.callName name) = Function.call name)
    {l : Limits} {formula formula' : String}
    (h : ResultAlike σ (Alike σ) (parse l formula) (parse l formula')) (s : Scope) :
    evaluate l s formula = evaluate l s formula' := by
  rw [evaluate, evaluate]
  rcases h.elim with ⟨_, _, hr, hr', -⟩ | ⟨_, _, hr, hr', he⟩
  · rw [hr, hr']
  · rw [hr, hr']
    exact he.eval_eq hσ s.read

end SheetTemplate.Formula
