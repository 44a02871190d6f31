import SheetTemplate.Proofs.Formula.Nesting

/-!
# The operands on the output stack

Every operator with two operands that waits has its left one on the output stack, and after an
operand there is one more (`Yard.Counted`). Each item keeps this count (`Yard.safe_step`), so it
holds wherever a run of the parser comes (`Yard.Reached.counted`). An operator therefore finds its
operands on the stack (`exists_reduce`), and the faults that guard the stacks do not arise
(`stacks_never_run_dry`).
-/

namespace SheetTemplate.Formula

/-- Whether an operator with two operands waits. -/
def Pending.isBinary : Pending → Bool
  | binary _ => true
  | _ => false

/-- Whether a fault is that of a stack on which something is missing or too much. -/
def Fault.guardsStacks : Fault → Bool
  | missingOperand _ | emptyGroup | emptyOutput | missingOperator | groupAsOperator => true
  | _ => false

/-- A result is as `P` says, and what fails is not a stack. -/
def Safe {α : Type} (P : α → Prop) : Except Error α → Prop
  | .ok a => P a
  | .error err => ∀ fault, err = .malformed fault → fault.guardsStacks = false

/-- The operands that the waiting operators have on the output. -/
def leftOperands (ps : List Pending) : Nat := ps.countP Pending.isBinary

@[simp] theorem leftOperands_binary (op : Operator) (ps : List Pending) :
    leftOperands (.binary op :: ps) = leftOperands ps + 1 := List.countP_cons_of_pos rfl

@[simp] theorem leftOperands_negate (ps : List Pending) :
    leftOperands (.negate :: ps) = leftOperands ps := List.countP_cons_of_neg nofun

@[simp] theorem leftOperands_group (ps : List Pending) :
    leftOperands (.group :: ps) = leftOperands ps := List.countP_cons_of_neg nofun

theorem safe_fail {α : Type} {P : α → Prop} {fault : Fault} (h : fault.guardsStacks = false) :
    Safe P (fail fault) := by
  rintro _ ⟨⟩
  exact h

theorem safe_tooDeep {α : Type} {P : α → Prop} (max : Nat) : Safe P (.error (.tooDeep max)) := by
  rintro _ ⟨⟩

variable {ps : List Pending} {out : List Expr}

/-! ### Taking operands -/

/-- An operator finds its operands on the output, and leaves one for the operators below it. -/
theorem exists_reduce {p : Pending} (hp : p ≠ .group)
    (h : out.length = leftOperands (p :: ps) + 1) :
    ∃ out', reduce p out = .ok out' ∧ out'.length = leftOperands ps + 1 := by
  obtain ⟨right, out, rfl⟩ := List.exists_of_length_succ out h
  cases p with
  | binary op =>
    rw [List.length_cons, leftOperands_binary] at h
    obtain ⟨left, out, rfl⟩ := List.exists_of_length_succ out (Nat.succ.inj h)
    exact ⟨_, rfl, Nat.succ.inj h⟩
  | negate => exact ⟨_, rfl, by rwa [leftOperands_negate] at h⟩
  | group => exact absurd rfl hp

theorem exists_reduceFor (op : Operator) (h : out.length = leftOperands ps + 1) :
    ∃ ps' out', reduceFor op ps out = .ok (ps', out') ∧ out'.length = leftOperands ps' + 1 := by
  induction ps generalizing out with
  | nil => exact ⟨[], out, rfl, h⟩
  | cons p ps ih =>
    rw [reduceFor]
    split_ifs with hyield
    · have hp : p ≠ .group := by
        rintro rfl
        cases hyield
      obtain ⟨out', hreduce, hlength⟩ := exists_reduce hp h
      rw [hreduce]
      exact ih hlength
    · exact ⟨p :: ps, out, rfl, h⟩

theorem safe_reduceGroup (h : out.length = leftOperands ps + 1) :
    Safe (fun r => r.2.length = leftOperands r.1 + 1) (reduceGroup ps out) := by
  induction ps generalizing out with
  | nil => exact safe_fail rfl
  | cons p ps ih =>
    by_cases hp : p = .group
    · subst hp
      rw [leftOperands_group] at h
      obtain ⟨inner, out, rfl⟩ := List.exists_of_length_succ out h
      exact h
    · obtain ⟨out', hreduce, hlength⟩ := exists_reduce hp h
      rw [reduceGroup_cons hp, hreduce]
      exact ih hlength

/-- At the end one operand is left. -/
theorem safe_reduceAll (h : out.length = leftOperands ps + 1) :
    Safe (fun out' => out'.length = 1) (reduceAll ps out) := by
  induction ps generalizing out with
  | nil => exact h
  | cons p ps ih =>
    by_cases hp : p = .group
    · subst hp
      exact safe_fail rfl
    · obtain ⟨out', hreduce, hlength⟩ := exists_reduce hp h
      rw [reduceAll_cons hp, hreduce]
      exact ih hlength

namespace Yard

variable {call : String → List Token → Except Error Expr} {y : Yard}

/-- The output holds an operand for each waiting operator with two of them, and one more unless an
operand has to follow. -/
def Counted (y : Yard) : Prop :=
  y.output.length = leftOperands y.pending + if y.expectsOperand then 0 else 1

/-! ### Reading items -/

theorem counted_start : start.Counted := rfl

theorem Counted.operand (h : y.Counted) (hexpects : y.expectsOperand = true) (e : Expr) :
    (y.operand e).Counted := by
  rw [Counted, if_pos hexpects] at h
  exact congrArg Nat.succ h

theorem safe_sign (h : y.Counted) (hexpects : y.expectsOperand = true) (op : Operator) :
    Safe Counted (y.sign op) := by
  rw [Counted, if_pos hexpects] at h
  cases op with
  | add =>
    show y.Counted
    rw [Counted, if_pos hexpects, h]
  | sub =>
    show Counted { y with pending := .negate :: y.pending }
    rw [Counted, if_pos hexpects, leftOperands_negate, h]
  | _ => exact safe_fail rfl

theorem safe_operator (h : y.Counted) (hexpects : y.expectsOperand = false) (op : Operator) :
    Safe Counted (y.operator op) := by
  rw [Counted, hexpects] at h
  obtain ⟨ps', out', hreduce, hlength⟩ := exists_reduceFor op h
  rw [operator, hreduce]
  show out'.length = leftOperands (.binary op :: ps') + 0
  rw [leftOperands_binary, hlength]

theorem safe_close (h : y.Counted) (hexpects : y.expectsOperand = false) :
    Safe Counted y.close := by
  rw [Counted, hexpects] at h
  have hsafe := safe_reduceGroup h
  rw [close]
  cases hreduce : reduceGroup y.pending y.output with
  | error err =>
    rw [hreduce] at hsafe
    exact hsafe
  | ok r =>
    rw [hreduce] at hsafe
    exact hsafe

theorem safe_token (h : y.Counted) (opens : Bool) (t : Token) :
    Safe Counted (y.token opens t) := by
  cases t with
  | number x =>
    rw [token]
    split_ifs with hexpects
    · exact h.operand hexpects _
    · exact safe_fail rfl
  | identifier name =>
    rw [token]
    split_ifs with hexpects
    · exact safe_fail rfl
    · exact h.operand hexpects _
    · exact safe_fail rfl
  | operator op =>
    rw [token]
    split_ifs with hexpects
    · exact safe_sign h hexpects op
    · exact safe_operator h (Bool.eq_false_iff.2 hexpects) op
  | openParen =>
    rw [token]
    split_ifs with hexpects
    · exact h
    · exact safe_fail rfl
  | closeParen =>
    rw [token]
    split_ifs with hexpects
    · exact safe_fail rfl
    · exact safe_close h (Bool.eq_false_iff.2 hexpects)
  | comma => exact safe_fail rfl

/-- **One item keeps the count**, and does not fail because of a stack. -/
theorem safe_step (hcall : ∀ name inner, Safe (fun _ => True) (call name inner)) (h : y.Counted)
    (opens : Bool) (item : Item) : Safe Counted (y.step call opens item) := by
  cases item with
  | token t => exact safe_token h opens t
  | call name inner =>
    have hsafe := hcall name inner
    rw [step]
    split_ifs with hexpects
    · cases hread : call name inner with
      | error err =>
        rw [hread] at hsafe
        exact hsafe
      | ok e => exact h.operand hexpects e
    · exact safe_fail rfl

theorem safe_finish (h : y.Counted) : Safe (fun _ => True) y.finish := by
  rw [finish]
  split_ifs with hexpects
  · exact safe_fail rfl
  · rw [Counted, if_neg hexpects] at h
    have hsafe := safe_reduceAll h
    cases hreduce : reduceAll y.pending y.output with
    | error err =>
      rw [hreduce] at hsafe
      exact hsafe
    | ok out =>
      rw [hreduce] at hsafe
      obtain ⟨e, rfl⟩ := List.length_eq_one_iff.1 hsafe
      trivial

/-! ### Runs -/

/-- The parser has come to a state with some items of a level still to read. -/
inductive Reached (call : String → List Token → Except Error Expr) (its : List Item) :
    List Item → Yard → Prop
  | start : Reached call its its .start
  | step {item : Item} {rest : List Item} {y y' : Yard} : Reached call its (item :: rest) y →
      y.step call (opensNext rest) item = .ok y' → Reached call its rest y'

variable {its rest : List Item}

/-- **The count holds wherever a run comes.** -/
theorem Reached.counted (hcall : ∀ name inner, Safe (fun _ => True) (call name inner))
    (h : Reached call its rest y) : y.Counted := by
  induction h with
  | start => exact counted_start
  | @step item rest y y' _ hstep ih =>
    have hsafe := safe_step hcall ih (opensNext rest) item
    rwa [hstep] at hsafe

/-- What a run gives is decided by the state that it has reached. -/
theorem Reached.run_eq (h : Reached call its rest y) :
    Yard.start.run call its = y.run call rest := by
  induction h with
  | start => rfl
  | step _ hstep ih => rw [ih, Yard.run, hstep]

/-- A run does not fail because of a stack. -/
theorem safe_run (hcall : ∀ name inner, Safe (fun _ => True) (call name inner)) (h : y.Counted)
    (its : List Item) : Safe (fun _ => True) (y.run call its) := by
  induction its generalizing y with
  | nil => exact safe_finish h
  | cons item its ih =>
    have hsafe := safe_step hcall h (opensNext its) item
    rw [run]
    cases hstep : y.step call (opensNext its) item with
    | error err =>
      rw [hstep] at hsafe
      exact hsafe
    | ok y' =>
      rw [hstep] at hsafe
      exact ih hsafe

end Yard

/-! ### Levels -/

/-- A call fails only where calls are nested too deeply. -/
theorem safe_readCall (l : Limits) (depth : Nat) (name : String) (inner : List Token) :
    Safe (fun _ => True) (readCall l depth name inner) := by
  unfold readCall
  split_ifs with hdepth
  · rw [parseCall]
    cases hargs : parseArguments (parseTokens l (depth + 1))
        (if inner = [] then [] else splitAtCommas 0 inner) with
    | ok args => trivial
    | error err =>
      obtain ⟨_, _, _, max, rfl⟩ := error_of_parseArguments hargs
      exact safe_tooDeep max
  · exact safe_tooDeep l.maxDepth

/-- **The stacks of the parser never run dry.** Wherever the parser comes on its way through a
level, the output holds as many operands as operators with two operands wait, and one more where no
operand has to follow; so a level does not fail because of what is on the stacks. -/
theorem stacks_never_run_dry (l : Limits) (depth : Nat) (ts : List Token) :
    (∀ rest y, Yard.Reached (readCall l depth) (items l.maxTokens ts) rest y →
      y.output.length =
        y.pending.countP Pending.isBinary + (if y.expectsOperand then 0 else 1) ∧
      parseTokens l depth ts = y.run (readCall l depth) rest) ∧
    ∀ fault, parseTokens l depth ts = .error (.malformed fault) → fault.guardsStacks = false := by
  refine ⟨fun rest y h => ⟨h.counted (safe_readCall l depth), ?_⟩, fun fault hfault => ?_⟩
  · rw [parseTokens_eq_run, h.run_eq]
  · have hsafe := Yard.safe_run (safe_readCall l depth) Yard.counted_start (items l.maxTokens ts)
    rw [← parseTokens_eq_run, hfault] at hsafe
    exact hsafe fault rfl

end SheetTemplate.Formula
