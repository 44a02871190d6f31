import SheetTemplate.Formula.Parser
import SheetTemplate.Proofs.Formula.Items

/-!
# The grammar of an expression level

Comparisons join sums, sums join products, products join unary expressions, all to the left; signs
stand in front of primary expressions, which are numbers, names, groups and calls. `Derives` says
which tokens derive which tree. The arguments of a call are levels of their own, so the grammar of
one level refers to the reader for what stands between two commas: a tree, or tokens that are kept
as they are.
-/

namespace SheetTemplate.Formula

/-- The kinds of expressions, those that bind less tightly first. -/
inductive Tier
  | comparison
  | sum
  | product
  | unary
  | primary
  deriving DecidableEq

namespace Tier

/-- The operators that join expressions of a tier. -/
def operators : Tier → List Operator
  | comparison => [.eq, .ne, .lt, .le, .gt, .ge]
  | sum => [.add, .sub]
  | product => [.mul, .div]
  | unary | primary => []

/-- The next tier, which binds more tightly. -/
def next : Tier → Tier
  | comparison => sum
  | sum => product
  | product => unary
  | unary | primary => primary

/-- The place of a tier in their order. -/
def rank : Tier → Nat
  | comparison => 1
  | sum => 2
  | product => 3
  | unary => 4
  | primary => 5

/-- The tier of an operator. -/
def ofOperator : Operator → Tier
  | .eq | .ne | .lt | .le | .gt | .ge => comparison
  | .add | .sub => sum
  | .mul | .div => product

theorem mem_operators_iff {t : Tier} {op : Operator} : op ∈ t.operators ↔ t = ofOperator op := by
  cases t <;> cases op <;> decide

theorem rank_ofOperator (op : Operator) : (ofOperator op).rank = op.precedence := by
  cases op <;> rfl

theorem rank_of_mem_operators {t : Tier} {op : Operator} (h : op ∈ t.operators) :
    t.rank = op.precedence := by
  rw [mem_operators_iff.1 h, rank_ofOperator]

theorem rank_next_ofOperator (op : Operator) : (ofOperator op).next.rank = op.precedence + 1 := by
  cases op <;> rfl

theorem precedence_le (op : Operator) : op.precedence ≤ 3 := by cases op <;> decide

end Tier

/-- What an argument gives on a level inside `depth` calls: its tree, or where its tokens are no
expression, these tokens. Too deep a nesting gives nothing. -/
inductive ArgumentTree (l : Limits) (depth : Nat) (ts : List Token) : Expr → Prop
  | tree {e : Expr} : parseTokens l depth ts = .ok e → ArgumentTree l depth ts e
  | invalid {err : Error} : parseTokens l depth ts = .error err → (∀ max, err ≠ .tooDeep max) →
      ArgumentTree l depth ts (.invalid ts)

/-- The arguments between the parentheses of a call: none, or the segments between commas. -/
inductive Arguments (l : Limits) (depth : Nat) : List Token → List Expr → Prop
  | none : Arguments l depth [] []
  | some {segs : List (List Token)} {args : List Expr} : segs ≠ [] → (∀ s ∈ segs, Segment s) →
      [Token.comma].intercalate segs ≠ [] → List.Forall₂ (ArgumentTree l depth) segs args →
      Arguments l depth ([Token.comma].intercalate segs) args

/-- Which tokens of a level inside `depth` calls derive which tree. -/
inductive Derives (l : Limits) (depth : Nat) : Tier → List Token → Expr → Prop
  | number (x : Float) : Derives l depth .primary [.number x] (.number x)
  | identifier (name : String) : Derives l depth .primary [.identifier name] (.identifier name)
  | group {ts : List Token} {e : Expr} : Derives l depth .comparison ts e →
      Derives l depth .primary (.openParen :: (ts ++ [.closeParen])) (.group e)
  | call {name : String} {inner : List Token} {args : List Expr} : depth + 1 ≤ l.maxDepth →
      Arguments l (depth + 1) inner args →
      Derives l depth .primary (.identifier name :: .openParen :: (inner ++ [.closeParen]))
        (.call name args)
  | minus {ts : List Token} {e : Expr} : Derives l depth .unary ts e →
      Derives l depth .unary (.operator .sub :: ts) (.negate e)
  | plus {ts : List Token} {e : Expr} : Derives l depth .unary ts e →
      Derives l depth .unary (.operator .add :: ts) e
  | binary {t : Tier} {op : Operator} {ts us : List Token} {left right : Expr} :
      op ∈ t.operators → Derives l depth t ts left → Derives l depth t.next us right →
      Derives l depth t (ts ++ .operator op :: us) (.binary op left right)
  | lift {t : Tier} {ts : List Token} {e : Expr} : Derives l depth t.next ts e →
      Derives l depth t ts e

namespace Derives

variable {l : Limits} {depth : Nat}

/-- An expression of a tier is one of every tier that binds less tightly. -/
theorem of_rank_le {t u : Tier} {ts : List Token} {e : Expr} (h : Derives l depth t ts e)
    (hle : u.rank ≤ t.rank) : Derives l depth u ts e := by
  have hstep : ∀ n (u : Tier), u.rank + n = t.rank → Derives l depth u ts e := by
    intro n
    induction n with
    | zero =>
      intro u hu
      have : u = t := by revert hu; cases u <;> cases t <;> decide
      exact this ▸ h
    | succ n ih =>
      intro u hu
      refine lift (ih u.next ?_)
      cases u with
      | primary => cases t <;> simp [Tier.rank] at hu <;> omega
      | _ => simp only [Tier.next, Tier.rank] at hu ⊢; omega
  exact hstep (t.rank - u.rank) u (by omega)

/-- Plus signs in front of a unary expression leave no trace in its tree. -/
theorem pluses {ts : List Token} {e : Expr} (k : Nat) (h : Derives l depth .unary ts e) :
    Derives l depth .unary (List.replicate k (.operator .add) ++ ts) e := by
  induction k with
  | zero => exact h
  | succ k ih => exact plus ih

end Derives

theorem balanced_of_arguments {l : Limits} {depth : Nat} {inner : List Token} {args : List Expr}
    (h : Arguments l depth inner args) : Balanced inner := by
  cases h with
  | none => exact .nil
  | some _ hseg _ _ => exact balanced_intercalate hseg

/-! ### Calls -/

/-- The reader of the calls of a level inside `depth` calls. -/
def readCall (l : Limits) (depth : Nat) : String → List Token → Except Error Expr :=
  if depth + 1 ≤ l.maxDepth then parseCall (parseTokens l (depth + 1))
  else fun _ _ => .error (.tooDeep l.maxDepth)

/-- A level is read by its items. -/
theorem parseTokens_eq_run (l : Limits) (depth : Nat) (ts : List Token) :
    parseTokens l depth ts = Yard.start.run (readCall l depth) (items l.maxTokens ts) := by
  unfold readCall
  split_ifs with h
  · -- the depth that is left is the recursion of the parser, and a call takes one step of it
    obtain ⟨n, hn⟩ : ∃ n, l.maxDepth - depth = n + 1 := ⟨l.maxDepth - (depth + 1), by omega⟩
    have hn' : l.maxDepth - (depth + 1) = n := by omega
    have hparse : parseTokens l (depth + 1) = parseLevel l n := by
      funext us
      rw [parseTokens, hn']
    rw [parseTokens, hn, hparse]
    rfl
  · rw [parseTokens, Nat.sub_eq_zero_of_le (by omega)]
    rfl

theorem parseArgument_eq_ok_iff {l : Limits} {depth : Nat} {ts : List Token} {e : Expr} :
    parseArgument (parseTokens l depth) ts = .ok e ↔ ArgumentTree l depth ts e := by
  unfold parseArgument
  constructor
  · intro h
    split at h
    · rename_i e' hparse
      cases h
      exact .tree hparse
    · cases h
    · rename_i err hnot hparse
      cases h
      exact .invalid hparse fun max he => hnot max he
  · rintro (hparse | ⟨hparse, hnot⟩)
    · rw [hparse]
    · rename_i err
      rw [hparse]
      cases err with
      | tooDeep max => exact absurd rfl (hnot max)
      | _ => rfl

theorem parseArguments_eq_ok_iff {l : Limits} {depth : Nat} {segs : List (List Token)}
    {args : List Expr} : parseArguments (parseTokens l depth) segs = .ok args ↔
      List.Forall₂ (ArgumentTree l depth) segs args := by
  induction segs generalizing args with
  | nil =>
    constructor
    · rintro ⟨⟩
      exact .nil
    · rintro ⟨⟩
      rfl
  | cons s segs ih =>
    rw [parseArguments]
    constructor
    · intro h
      split at h
      · cases h
      · rename_i e he
        split at h
        · cases h
        · rename_i es hes
          cases h
          exact .cons (parseArgument_eq_ok_iff.1 he) (ih.1 hes)
    · rintro (_ | ⟨he, hes⟩)
      rw [parseArgument_eq_ok_iff.2 he, ih.2 hes]

/-- A call is read where the grammar has it. -/
theorem readCall_eq_ok_iff {l : Limits} {depth : Nat} {name : String} {inner : List Token}
    {e : Expr} (hinner : Balanced inner) : readCall l depth name inner = .ok e ↔
      depth + 1 ≤ l.maxDepth ∧
        ∃ args, e = .call name args ∧ Arguments l (depth + 1) inner args := by
  unfold readCall
  split_ifs with hdepth
  · have hargs : ∀ args, parseArguments (parseTokens l (depth + 1))
        (if inner = [] then [] else splitAtCommas 0 inner) = .ok args ↔
        Arguments l (depth + 1) inner args := by
      intro args
      rw [parseArguments_eq_ok_iff]
      obtain ⟨segs, hne, hseg, rfl⟩ := exists_segments hinner
      rw [splitAtCommas_intercalate hne hseg]
      constructor
      · intro h
        split_ifs at h with hnil
        · cases h
          rw [hnil]
          exact .none
        · exact .some hne hseg hnil h
      · intro h
        generalize hts : [Token.comma].intercalate segs = ts at h
        cases h with
        | none => exact if_pos rfl ▸ .nil
        | some hne' hseg' hnil' hall =>
          -- cutting at the commas recovers either list of segments, so the two are equal
          rw [if_neg hnil', ← splitAtCommas_intercalate hne hseg, hts,
            splitAtCommas_intercalate hne' hseg']
          exact hall
    unfold parseCall
    constructor
    · intro h
      split at h
      · cases h
      · rename_i args hparse
        cases h
        exact ⟨hdepth, args, rfl, (hargs args).1 hparse⟩
    · rintro ⟨-, args, rfl, h⟩
      rw [(hargs args).2 h]
  · constructor
    · rintro ⟨⟩
    · rintro ⟨h, -⟩
      exact absurd h hdepth

end SheetTemplate.Formula
