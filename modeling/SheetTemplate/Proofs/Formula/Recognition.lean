import SheetTemplate.Proofs.Formula.Grammar

/-!
# The two-stack parser recognises the grammar

`Waiting` says which tokens the two stacks of the parser stand for in front of an operand, and
`Holding` the same with an operand on top. Each kind of item preserves one of them or turns it into
the other (`Reads.step`), so a run that succeeds has read a derivation (`derives_of_run`).

Conversely the tokens of a derivation leave its tree on the output stack, up to operators that wait
for a weaker one to follow (`Leaves`), and these are taken at the end (`run_of_leaves`). Together,
`parseTokens_eq_ok_iff`.
-/

namespace SheetTemplate.Formula

variable {l : Limits} {depth : Nat} {call : String → List Token → Except Error Expr}

/-- An operand of tier `t` may stand behind the last waiting operator. -/
def Fits (t : Tier) : List Pending → Prop
  | .binary op :: _ => op.precedence < t.rank
  | .negate :: _ => Tier.unary.rank ≤ t.rank
  | _ => True

/-- Some plus signs, which leave no trace. -/
def plusSigns (k : Nat) : List Token := List.replicate k (.operator .add)

/-- What waits, with the operands it has, stands for the tokens read so far. -/
inductive Waiting (l : Limits) (depth : Nat) : List Pending → List Expr → List Token → Prop
  | nil : Waiting l depth [] [] []
  | negate {ps : List Pending} {out : List Expr} {ts : List Token} (k : Nat) :
      Waiting l depth ps out ts →
      Waiting l depth (.negate :: ps) out (ts ++ (plusSigns k ++ [.operator .sub]))
  | group {ps : List Pending} {out : List Expr} {ts : List Token} (k : Nat) :
      Waiting l depth ps out ts →
      Waiting l depth (.group :: ps) out (ts ++ (plusSigns k ++ [.openParen]))
  | binary {ps : List Pending} {out : List Expr} {ts us : List Token} {t : Tier} {op : Operator}
      {e : Expr} : Waiting l depth ps out ts → op ∈ t.operators → Derives l depth t us e →
      Fits t ps → Waiting l depth (.binary op :: ps) (e :: out) (ts ++ (us ++ [.operator op]))

/-- An operand of tier `t` stands on top of what waits. -/
inductive Holding (l : Limits) (depth : Nat) (t : Tier) :
    List Pending → List Expr → List Token → Prop
  | mk {ps : List Pending} {out : List Expr} {ts us : List Token} {e : Expr} :
      Waiting l depth ps out ts → Derives l depth t us e → Fits t ps →
      Holding l depth t ps (e :: out) (ts ++ us)

/-- The state of the parser after some tokens. -/
inductive Reads (l : Limits) (depth : Nat) : Yard → List Token → Prop
  | waiting {ps : List Pending} {out : List Expr} {ts : List Token} (k : Nat) :
      Waiting l depth ps out ts → Reads l depth ⟨out, ps, true⟩ (ts ++ plusSigns k)
  | holding {ps : List Pending} {out : List Expr} {ts : List Token} :
      Holding l depth .unary ps out ts → Reads l depth ⟨out, ps, false⟩ ts

theorem fits_unary (ps : List Pending) : Fits .unary ps := by
  cases ps with
  | nil => trivial
  | cons p ps =>
    cases p with
    | binary op => exact Nat.lt_succ_of_le (Tier.precedence_le op)
    | negate => exact Nat.le_refl _
    | group => trivial

/-! ### Taking operands -/

/-- An operator that takes its operands stands for the same tokens. -/
theorem Holding.reduce {t : Tier} {p : Pending} {ps : List Pending} {out out' : List Expr}
    {ts : List Token} (h : Holding l depth t (p :: ps) out ts)
    (hr : Formula.reduce p out = .ok out') :
    (∃ op u, p = .binary op ∧ op ∈ u.operators ∧ Holding l depth u ps out' ts) ∨
      (p = .negate ∧ Holding l depth .unary ps out' ts) := by
  obtain ⟨hwait, hder, hfits⟩ := h
  cases hwait with
  | negate k hwait =>
    cases hr
    refine .inr ⟨rfl, ?_⟩
    have := (Derives.minus (hder.of_rank_le hfits)).pluses k
    simpa [plusSigns] using Holding.mk hwait this (fits_unary _)
  | group k hwait => cases hr
  | @binary _ out₀ ts₀ us u op left hwait hop hleft hfits' =>
    cases hr
    refine .inl ⟨op, u, rfl, hop, ?_⟩
    have hu : u.next.rank = op.precedence + 1 := by
      rw [Tier.mem_operators_iff.1 hop, Tier.rank_next_ofOperator]
    have hright := hder.of_rank_le (u := u.next) (hu ▸ hfits)
    simpa using Holding.mk hwait (.binary hop hleft hright) hfits'

/-- Before an operator, all stronger ones have taken their operands. -/
theorem Holding.reduceFor {op : Operator} {t : Tier} {ps ps' : List Pending}
    {out out' : List Expr} {ts : List Token} (h : Holding l depth t ps out ts)
    (ht : op.precedence ≤ t.rank) (hr : Formula.reduceFor op ps out = .ok (ps', out')) :
    ∃ u, Holding l depth u ps' out' ts ∧ op.precedence ≤ u.rank ∧
      ∀ p ∈ ps'.head?, p.yieldsTo op = false := by
  induction ps generalizing t out with
  | nil =>
    cases hr
    exact ⟨t, h, ht, by simp⟩
  | cons p ps ih =>
    -- what yields is no weaker than `op`, so what it makes is of a tier no weaker than `op`
    rw [Formula.reduceFor] at hr
    split_ifs at hr with hyield
    · split at hr
      · cases hr
      · rename_i out₁ hred
        rcases h.reduce hred with ⟨op', u, rfl, hop', h'⟩ | ⟨rfl, h'⟩
        · refine ih h' ?_ hr
          rw [Tier.rank_of_mem_operators hop']
          simpa [Pending.yieldsTo] using hyield
        · exact ih h' (Nat.le_succ_of_le (Tier.precedence_le op)) hr
    · cases hr
      exact ⟨t, h, ht, by simpa using hyield⟩

theorem reduceGroup_cons {p : Pending} (hp : p ≠ .group) (ps : List Pending) (out : List Expr) :
    reduceGroup (p :: ps) out = match reduce p out with
      | .error e => .error e
      | .ok out => reduceGroup ps out := by
  cases p <;> first | rfl | exact absurd rfl hp

theorem reduceAll_cons {p : Pending} (hp : p ≠ .group) (ps : List Pending) (out : List Expr) :
    reduceAll (p :: ps) out = match reduce p out with
      | .error e => .error e
      | .ok out => reduceAll ps out := by
  cases p <;> first | rfl | exact absurd rfl hp

/-- Where all operators take their operands, the first one does, and no group is among them. -/
theorem exists_of_reduceAll_cons {p : Pending} {ps : List Pending} {out out' : List Expr}
    (h : reduceAll (p :: ps) out = .ok out') :
    p ≠ .group ∧ ∃ out₁, reduce p out = .ok out₁ ∧ reduceAll ps out₁ = .ok out' := by
  have hp : p ≠ .group := by
    rintro rfl
    cases h
  rw [reduceAll_cons hp] at h
  split at h
  · cases h
  · rename_i out₁ hred
    exact ⟨hp, out₁, hred, h⟩

/-- A closing parenthesis turns what stands behind the opening one into an operand. -/
theorem Holding.reduceGroup {t : Tier} {ps ps' : List Pending} {out out' : List Expr}
    {ts : List Token} (h : Holding l depth t ps out ts)
    (hr : Formula.reduceGroup ps out = .ok (ps', out')) :
    Holding l depth .unary ps' out' (ts ++ [.closeParen]) := by
  induction ps generalizing t out with
  | nil => cases hr
  | cons p ps ih =>
    by_cases hp : p = .group
    · subst hp
      obtain ⟨hwait, hder, -⟩ := h
      cases hr
      cases hwait with
      | group k hwait =>
        have hgroup := Derives.group (hder.of_rank_le (u := .comparison) (by cases t <;> decide))
        have := (hgroup.of_rank_le (u := .unary) (by decide)).pluses k
        simpa [plusSigns] using Holding.mk hwait this (fits_unary _)
    · rw [reduceGroup_cons hp] at hr
      split at hr
      · cases hr
      · rename_i out₁ hred
        rcases h.reduce hred with ⟨_, u, rfl, -, h'⟩ | ⟨rfl, h'⟩
        · exact ih h' hr
        · exact ih h' hr

/-- At the end, all operators take their operands. -/
theorem Holding.reduceAll {t : Tier} {ps : List Pending} {out out' : List Expr}
    {ts : List Token} (h : Holding l depth t ps out ts)
    (hr : Formula.reduceAll ps out = .ok out') :
    ∃ e, out' = [e] ∧ Derives l depth .comparison ts e := by
  induction ps generalizing t out with
  | nil =>
    cases hr
    obtain ⟨hwait, hder, -⟩ := h
    cases hwait
    exact ⟨_, rfl, hder.of_rank_le (by cases t <;> decide)⟩
  | cons p ps ih =>
    obtain ⟨-, out₁, hred, hr⟩ := exists_of_reduceAll_cons hr
    rcases h.reduce hred with ⟨_, u, -, -, h'⟩ | ⟨-, h'⟩
    · exact ih h' hr
    · exact ih h' hr

/-! ### Reading items -/

/-- A primary expression is read as an operand. -/
theorem Reads.operand {out : List Expr} {ps : List Pending} {ts us : List Token} {e : Expr}
    (h : Reads l depth ⟨out, ps, true⟩ ts) (he : Derives l depth .primary us e) :
    Reads l depth ⟨e :: out, ps, false⟩ (ts ++ us) := by
  cases h with
  | waiting k hwait =>
    have := (he.of_rank_le (u := .unary) (by decide)).pluses k
    simpa [plusSigns] using Reads.holding (.mk hwait this (fits_unary _))

theorem Reads.sign {out : List Expr} {ps : List Pending} {ts : List Token} {op : Operator}
    {y' : Yard} (h : Reads l depth ⟨out, ps, true⟩ ts)
    (hy : Yard.sign ⟨out, ps, true⟩ op = .ok y') : Reads l depth y' (ts ++ [.operator op]) := by
  cases h with
  | waiting k hwait =>
    cases op with
    | add =>
      cases hy
      have := Reads.waiting (k + 1) hwait
      rwa [plusSigns, List.replicate_succ', ← List.append_assoc] at this
    | sub =>
      cases hy
      have := Reads.waiting 0 (Waiting.negate k hwait)
      simpa [plusSigns] using this
    | _ => cases hy

theorem Reads.operator {out : List Expr} {ps : List Pending} {ts : List Token} {op : Operator}
    {y' : Yard} (h : Reads l depth ⟨out, ps, false⟩ ts)
    (hy : Yard.operator ⟨out, ps, false⟩ op = .ok y') :
    Reads l depth y' (ts ++ [.operator op]) := by
  cases h with
  | holding hold =>
    unfold Yard.operator at hy
    split at hy
    · cases hy
    · rename_i ps' out' hred
      cases hy
      obtain ⟨u, ⟨hwait, hder, hfits⟩, hu, hhead⟩ :=
        hold.reduceFor (Nat.le_succ_of_le (Tier.precedence_le op)) hred
      have hop : op ∈ (Tier.ofOperator op).operators := Tier.mem_operators_iff.2 rfl
      -- what still waits did not yield, so it is weaker than `op`
      have hfits' : Fits (Tier.ofOperator op) ps' := by
        cases ps' with
        | nil => trivial
        | cons p ps' =>
          have hp := hhead p rfl
          cases p with
          | binary op' =>
            rw [Fits, Tier.rank_ofOperator]
            simpa [Pending.yieldsTo] using hp
          | negate => cases hp
          | group => trivial
      have hder' := hder.of_rank_le (u := Tier.ofOperator op) (by rwa [Tier.rank_ofOperator])
      have := Reads.waiting 0 (Waiting.binary hwait hop hder' hfits')
      simpa [plusSigns] using this

theorem Reads.close {out : List Expr} {ps : List Pending} {ts : List Token} {y' : Yard}
    (h : Reads l depth ⟨out, ps, false⟩ ts) (hy : Yard.close ⟨out, ps, false⟩ = .ok y') :
    Reads l depth y' (ts ++ [.closeParen]) := by
  cases h with
  | holding hold =>
    unfold Yard.close at hy
    split at hy
    · cases hy
    · rename_i ps' out' hred
      cases hy
      exact .holding (hold.reduceGroup hred)

theorem Reads.token {y y' : Yard} {ts : List Token} {t : Token} {opensNext : Bool}
    (h : Reads l depth y ts) (hy : y.token opensNext t = .ok y') :
    Reads l depth y' (ts ++ [t]) := by
  obtain ⟨out, ps, expects⟩ := y
  cases t with
  | number x =>
    cases expects with
    | true => cases hy; exact h.operand (.number x)
    | false => cases hy
  | identifier name =>
    cases expects with
    | true =>
      cases opensNext with
      | true => cases hy
      | false => cases hy; exact h.operand (.identifier name)
    | false => cases hy
  | operator op =>
    cases expects with
    | true => exact h.sign hy
    | false => exact h.operator hy
  | openParen =>
    cases expects with
    | true =>
      cases hy
      cases h with
      | waiting k hwait =>
        have := Reads.waiting 0 (Waiting.group k hwait)
        simpa [plusSigns] using this
    | false => cases hy
  | closeParen =>
    cases expects with
    | true => cases hy
    | false => exact h.close hy
  | comma => cases hy

/-- **One item is read**, where calls are read as the grammar has it. -/
theorem Reads.step {y y' : Yard} {ts : List Token} {item : Item} {opensNext : Bool}
    (hcall : ∀ {name inner e}, item = .call name inner → call name inner = .ok e →
      Derives l depth .primary item.tokens e)
    (h : Reads l depth y ts) (hy : y.step call opensNext item = .ok y') :
    Reads l depth y' (ts ++ item.tokens) := by
  cases item with
  | call name inner =>
    obtain ⟨out, ps, expects⟩ := y
    cases expects with
    | true =>
      simp only [Yard.step, if_true] at hy
      split at hy
      · cases hy
      · rename_i e he
        cases hy
        exact h.operand (hcall rfl he)
    | false => cases hy
  | token t => exact h.token hy

theorem Reads.finish {y : Yard} {ts : List Token} {e : Expr} (h : Reads l depth y ts)
    (hy : y.finish = .ok e) : Derives l depth .comparison ts e := by
  cases h with
  | waiting k hwait => cases hy
  | holding hold =>
    simp only [Yard.finish, Bool.false_eq_true, if_false] at hy
    split at hy
    · cases hy
    · cases hy
    · rename_i e' hred
      cases hy
      obtain ⟨e', he', hder⟩ := hold.reduceAll hred
      cases he'
      exact hder
    · cases hy

/-- **A run that succeeds has read a derivation.** -/
theorem derives_of_run {y : Yard} {ts : List Token} {its : List Item} {e : Expr}
    (hcall : ∀ {name inner e}, Item.call name inner ∈ its → call name inner = .ok e →
      Derives l depth .primary (Item.call name inner).tokens e)
    (h : Reads l depth y ts) (hrun : y.run call its = .ok e) :
    Derives l depth .comparison (ts ++ its.flatMap Item.tokens) e := by
  induction its generalizing y ts with
  | nil => simpa using h.finish hrun
  | cons item its ih =>
    rw [Yard.run] at hrun
    split at hrun
    · cases hrun
    · rename_i y' hstep
      have h' := h.step (fun hitem he => by
        subst hitem
        exact hcall List.mem_cons_self he) hstep
      have := ih (fun hmem => hcall (List.mem_cons_of_mem _ hmem)) h' hrun
      simpa using this

/-! ### Running a derivation -/

/-- Operators that bind no less tightly than tier `t` do not make the last one that waits yield. -/
def Allows (t : Tier) (ps : List Pending) : Prop :=
  ∀ p ∈ ps.head?, ∀ op : Operator, t.rank ≤ op.precedence → p.yieldsTo op = false

/-- Reading the items leaves `e` on the output, up to waiting operators that yield to every operator
of tier `t` and to weaker ones. -/
def Leaves (call : String → List Token → Except Error Expr) (t : Tier) (its : List Item)
    (e : Expr) : Prop :=
  ∀ out ps, Allows t ps → ∃ ps' out',
    (∀ rest, Yard.opensNext rest = false →
      Yard.run call ⟨out, ps, true⟩ (its ++ rest) = Yard.run call ⟨out', ps' ++ ps, false⟩ rest) ∧
    reduceAll ps' out' = .ok (e :: out) ∧
    ∀ p ∈ ps', ∀ op : Operator, op.precedence ≤ t.rank → p.yieldsTo op = true

/-- The items are those of the tokens, whatever follows them on their level. -/
def CutInto (its : List Item) (ts : List Token) : Prop :=
  ∀ n rest, rest.head? ≠ some Token.openParen →
    items (its.length + n) (ts ++ rest) = its ++ items n rest

theorem reduceAll_append {ps : List Pending} {out out' : List Expr}
    (h : reduceAll ps out = .ok out') (more : List Pending) :
    reduceAll (ps ++ more) out = reduceAll more out' := by
  induction ps generalizing out with
  | nil => cases h; rfl
  | cons p ps ih =>
    obtain ⟨hp, out₁, hred, h⟩ := exists_of_reduceAll_cons h
    rw [List.cons_append, reduceAll_cons hp, hred]
    exact ih h

theorem reduceFor_append {op : Operator} {ps : List Pending} {out out' : List Expr}
    (h : reduceAll ps out = .ok out') (hyield : ∀ p ∈ ps, p.yieldsTo op = true)
    (more : List Pending) : reduceFor op (ps ++ more) out = reduceFor op more out' := by
  induction ps generalizing out with
  | nil => cases h; rfl
  | cons p ps ih =>
    obtain ⟨-, out₁, hred, h⟩ := exists_of_reduceAll_cons h
    rw [List.cons_append, reduceFor, if_pos (hyield p List.mem_cons_self), hred]
    exact ih h fun p hp => hyield p (List.mem_cons_of_mem _ hp)

theorem reduceFor_of_allows {op : Operator} {ps : List Pending} {t : Tier} (h : Allows t ps)
    (hop : t.rank ≤ op.precedence) (out : List Expr) : reduceFor op ps out = .ok (ps, out) := by
  cases ps with
  | nil => rfl
  | cons p ps => rw [reduceFor, if_neg (by rw [h p rfl op hop]; exact Bool.false_ne_true)]

theorem reduceGroup_append {ps : List Pending} {out out' : List Expr}
    (h : reduceAll ps out = .ok out') (more : List Pending) :
    reduceGroup (ps ++ more) out = reduceGroup more out' := by
  induction ps generalizing out with
  | nil => cases h; rfl
  | cons p ps ih =>
    obtain ⟨hp, out₁, hred, h⟩ := exists_of_reduceAll_cons h
    rw [List.cons_append, reduceGroup_cons hp, hred]
    exact ih h

theorem allows_group (ps : List Pending) : Allows .comparison (.group :: ps) := by
  rintro p ⟨⟩ op -
  rfl

theorem allows_negate (ps : List Pending) : Allows .unary (.negate :: ps) := by
  intro p _ op hop
  exact absurd (Nat.le_trans hop (Tier.precedence_le op)) (Nat.not_succ_le_self 3)

theorem allows_binary (op : Operator) (ps : List Pending) :
    Allows (Tier.ofOperator op).next (.binary op :: ps) := by
  rintro p ⟨⟩ op' hop'
  rw [Tier.rank_next_ofOperator] at hop'
  exact decide_eq_false (Nat.not_le_of_lt hop')

theorem run_cons {y y' : Yard} {item : Item} {rest : List Item}
    (h : y.step call (Yard.opensNext rest) item = .ok y') :
    Yard.run call y (item :: rest) = Yard.run call y' rest := by
  rw [Yard.run, h]

/-- A single operand leaves itself. -/
theorem leaves_operand {its : List Item} {e : Expr}
    (h : ∀ out ps rest, Yard.opensNext rest = false →
      Yard.run call ⟨out, ps, true⟩ (its ++ rest) = Yard.run call ⟨e :: out, ps, false⟩ rest) :
    Leaves call .primary its e := by
  intro out ps _
  exact ⟨[], e :: out, h out ps, rfl, by simp⟩

theorem Leaves.group {its : List Item} {e : Expr} (h : Leaves call .comparison its e) :
    Leaves call .primary (.token .openParen :: (its ++ [.token .closeParen])) (.group e) := by
  refine leaves_operand fun out ps rest _ => ?_
  obtain ⟨ps', out', hrun, hred, -⟩ := h out (.group :: ps) (allows_group ps)
  have hclose : Yard.close ⟨out', ps' ++ .group :: ps, false⟩ =
      .ok ⟨.group e :: out, ps, false⟩ := by
    rw [Yard.close, reduceGroup_append hred]
    rfl
  have hopen : Yard.run call ⟨out, ps, true⟩
      (.token .openParen :: (its ++ .token .closeParen :: rest)) =
      Yard.run call ⟨out, .group :: ps, true⟩ (its ++ .token .closeParen :: rest) := rfl
  rw [List.cons_append, List.append_assoc, List.singleton_append, hopen, hrun _ rfl]
  exact run_cons hclose

theorem Leaves.minus {its : List Item} {e : Expr} (h : Leaves call .unary its e) :
    Leaves call .unary (.token (.operator .sub) :: its) (.negate e) := by
  intro out ps _
  obtain ⟨ps', out', hrun, hred, hyield⟩ := h out (.negate :: ps) (allows_negate ps)
  refine ⟨ps' ++ [.negate], out', fun rest hrest => ?_, ?_, ?_⟩
  · rw [List.append_assoc, List.singleton_append, ← hrun rest hrest]
    rfl
  · rw [reduceAll_append hred]
    rfl
  · intro p hp op hop
    rcases List.mem_append.1 hp with hp | hp
    · exact hyield p hp op hop
    · cases List.mem_singleton.1 hp
      rfl

theorem Leaves.plus {its : List Item} {e : Expr} (h : Leaves call .unary its e) :
    Leaves call .unary (.token (.operator .add) :: its) e := h

theorem Leaves.binary {t : Tier} {op : Operator} {its its' : List Item} {left right : Expr}
    (hop : op ∈ t.operators) (h : Leaves call t its left) (h' : Leaves call t.next its' right) :
    Leaves call t (its ++ .token (.operator op) :: its') (.binary op left right) := by
  intro out ps hps
  have hrank := Tier.rank_of_mem_operators hop
  obtain ⟨ps₁, out₁, hrun₁, hred₁, hyield₁⟩ := h out ps hps
  have hallows : Allows t.next (.binary op :: ps) :=
    Tier.mem_operators_iff.1 hop ▸ allows_binary op ps
  obtain ⟨ps₂, out₂, hrun₂, hred₂, hyield₂⟩ := h' (left :: out) (.binary op :: ps) hallows
  have hnext : t.rank ≤ t.next.rank := by cases t <;> decide
  -- all that the left operand left waiting yields to `op`, and nothing below it does
  have hoperator : Yard.operator ⟨out₁, ps₁ ++ ps, false⟩ op =
      .ok ⟨left :: out, .binary op :: ps, true⟩ := by
    rw [Yard.operator, reduceFor_append hred₁ fun p hp => hyield₁ p hp op (Nat.le_of_eq hrank.symm),
      reduceFor_of_allows hps (Nat.le_of_eq hrank)]
  refine ⟨ps₂ ++ [.binary op], out₂, fun rest hrest => ?_, ?_, ?_⟩
  · rw [List.append_assoc, List.append_assoc, List.singleton_append, List.cons_append,
      hrun₁ _ rfl, ← hrun₂ rest hrest]
    exact run_cons hoperator
  · rw [reduceAll_append hred₂]
    rfl
  · intro p hp op' hop'
    rcases List.mem_append.1 hp with hp | hp
    · exact hyield₂ p hp op' (Nat.le_trans hop' hnext)
    · cases List.mem_singleton.1 hp
      simpa [Pending.yieldsTo] using hrank ▸ hop'

theorem Leaves.lift {t : Tier} {its : List Item} {e : Expr} (h : Leaves call t.next its e) :
    Leaves call t its e := by
  intro out ps hps
  have hnext : t.rank ≤ t.next.rank := by cases t <;> decide
  obtain ⟨ps', out', hrun, hred, hyield⟩ :=
    h out ps fun p hp op hop => hps p hp op (Nat.le_trans hnext hop)
  exact ⟨ps', out', hrun, hred, fun p hp op hop => hyield p hp op (Nat.le_trans hop hnext)⟩

/-! ### The items of a derivation -/

theorem items_cons_token {t : Token} (ht : ∀ name, t ≠ .identifier name) (n : Nat)
    (ts : List Token) : items (n + 1) (t :: ts) = .token t :: items n ts := by
  refine items_of_takeItem (takeItem_token ?_) n
  cases t with
  | identifier name => exact absurd rfl (ht name)
  | _ => trivial

theorem CutInto.token {t : Token} (h : ∀ rest, rest.head? ≠ some Token.openParen →
    (Item.token t).WellCut rest) : CutInto [.token t] [t] := by
  intro n rest hrest
  rw [List.length_singleton, Nat.add_comm]
  exact items_of_takeItem (takeItem_token (h rest hrest)) n

theorem CutInto.callItem (name : String) {inner : List Token} (h : Balanced inner) :
    CutInto [.call name inner] (.identifier name :: .openParen :: (inner ++ [.closeParen])) := by
  intro n rest _
  rw [List.length_singleton, Nat.add_comm]
  have := items_of_takeItem (takeItem_call name h rest) n
  simpa using this

theorem CutInto.cons {t : Token} (ht : ∀ name, t ≠ .identifier name) {its : List Item}
    {ts : List Token} (h : CutInto its ts) : CutInto (.token t :: its) (t :: ts) := by
  intro n rest hrest
  rw [List.length_cons, Nat.add_right_comm, List.cons_append, items_cons_token ht, h n rest hrest,
    List.cons_append]

theorem CutInto.append {its its' : List Item} {t : Token} {ts ts' : List Token}
    (h : CutInto its ts) (h' : CutInto its' (t :: ts')) (ht : t ≠ .openParen) :
    CutInto (its ++ its') (ts ++ t :: ts') := by
  intro n rest hrest
  have hhead : (t :: ts' ++ rest).head? ≠ some Token.openParen := by simpa using ht
  rw [List.length_append, Nat.add_assoc, List.append_assoc, h _ _ hhead, h' n rest hrest,
    List.append_assoc]

/-- **The items of a derivation leave its tree.** -/
theorem exists_items_of_derives {t : Tier} {ts : List Token} {e : Expr}
    (h : Derives l depth t ts e) : ∃ its, its.flatMap Item.tokens = ts ∧ CutInto its ts ∧
      Leaves (readCall l depth) t its e := by
  induction h with
  | number x =>
    refine ⟨[.token (.number x)], rfl, .token fun _ _ => trivial, ?_⟩
    exact leaves_operand fun out ps rest _ => rfl
  | identifier name =>
    refine ⟨[.token (.identifier name)], rfl, .token fun rest hrest => ?_, ?_⟩
    · cases rest with
      | nil => trivial
      | cons u rest =>
        cases u with
        | openParen => exact absurd rfl hrest
        | _ => trivial
    · refine leaves_operand fun out ps rest hrest => ?_
      rw [List.singleton_append, Yard.run, hrest]
      rfl
  | group _ ih =>
    obtain ⟨its, rfl, hcut, hleaves⟩ := ih
    refine ⟨_, ?_, ?_, hleaves.group⟩
    · simp [Item.tokens]
    · refine .cons (fun name => Token.noConfusion) (hcut.append ?_ (by decide))
      exact .token fun _ _ => trivial
  | @call name inner args hdepth hargs =>
    have hinner := balanced_of_arguments hargs
    refine ⟨[.call name inner], by simp [Item.tokens], .callItem name hinner, ?_⟩
    refine leaves_operand fun out ps rest _ => ?_
    have hread : readCall l depth name inner = .ok (.call name args) :=
      (readCall_eq_ok_iff hinner).2 ⟨hdepth, args, rfl, hargs⟩
    refine run_cons ?_
    simp [Yard.step, hread, Yard.operand]
  | minus _ ih =>
    obtain ⟨its, rfl, hcut, hleaves⟩ := ih
    exact ⟨_, rfl, .cons (fun name => Token.noConfusion) hcut, hleaves.minus⟩
  | plus _ ih =>
    obtain ⟨its, rfl, hcut, hleaves⟩ := ih
    exact ⟨_, rfl, .cons (fun name => Token.noConfusion) hcut, hleaves.plus⟩
  | @binary t op ts us left right hop _ _ ih₁ ih₂ =>
    obtain ⟨its, rfl, hcut, hleaves⟩ := ih₁
    obtain ⟨its', rfl, hcut', hleaves'⟩ := ih₂
    refine ⟨_, ?_, ?_, hleaves.binary hop hleaves'⟩
    · simp [Item.tokens]
    · exact hcut.append (.cons (fun name => Token.noConfusion) hcut') (by simp)
  | lift _ ih =>
    obtain ⟨its, hits, hcut, hleaves⟩ := ih
    exact ⟨its, hits, hcut, hleaves.lift⟩

theorem run_of_leaves {its : List Item} {e : Expr} (h : Leaves call .comparison its e) :
    Yard.start.run call its = .ok e := by
  obtain ⟨ps', out', hrun, hred, -⟩ := h [] [] (by simp [Allows])
  have := hrun [] rfl
  rw [List.append_nil, List.append_nil] at this
  rw [Yard.start, this]
  simp [Yard.run, Yard.finish, hred]

/-- What the parser accepts is a derivation of the items that are kept. -/
theorem derives_of_parseTokens {ts : List Token} {e : Expr} (h : parseTokens l depth ts = .ok e) :
    Derives l depth .comparison (firstItems l.maxTokens ts) e := by
  rw [parseTokens_eq_run] at h
  have hstart : Reads l depth Yard.start [] := Reads.waiting 0 .nil
  refine derives_of_run (fun {name inner e} hmem he => ?_) hstart h
  have hinner := balanced_of_call_mem_items hmem
  obtain ⟨hdepth, args, rfl, hargs⟩ := (readCall_eq_ok_iff hinner).1 he
  exact .call hdepth hargs

/-- The parser accepts what the items that are kept derive. -/
theorem parseTokens_of_derives {ts : List Token} {e : Expr}
    (h : Derives l depth .comparison (firstItems l.maxTokens ts) e) :
    parseTokens l depth ts = .ok e := by
  rw [parseTokens_eq_run]
  obtain ⟨its, hits, hcut, hleaves⟩ := exists_items_of_derives h
  have hcut' := hcut 0 [] (by simp)
  have hkept := items_firstItems l.maxTokens ts
  rw [items_nil, List.append_nil, List.append_nil, Nat.add_zero] at hcut'
  -- both lists of items take up all tokens, so a cap that is the sum of theirs changes neither
  have hall : ∀ {n}, items n (firstItems l.maxTokens ts) = items l.maxTokens ts →
      items (n + its.length) (firstItems l.maxTokens ts) = items l.maxTokens ts := by
    intro n hn
    rw [items_of_flatMap_eq (by rw [hn]; rfl), hn]
  have heq : its = items l.maxTokens ts := by
    rw [← hall hkept, Nat.add_comm, items_of_flatMap_eq (by rw [hcut', hits]), hcut']
  exact heq ▸ run_of_leaves hleaves

/-- **The parser recognises the grammar.** It accepts the tokens of a level just where the items
that are kept of it derive a comparison, and gives the tree of the derivation. -/
theorem parseTokens_eq_ok_iff (l : Limits) (depth : Nat) (ts : List Token) (e : Expr) :
    parseTokens l depth ts = .ok e ↔
      Derives l depth .comparison (firstItems l.maxTokens ts) e :=
  ⟨derives_of_parseTokens, parseTokens_of_derives⟩

end SheetTemplate.Formula
