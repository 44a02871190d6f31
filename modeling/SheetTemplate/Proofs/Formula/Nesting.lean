import SheetTemplate.Proofs.Formula.Tokenization

/-!
# The limit on nested calls

Inside each call there is one level of nesting less to spend, and a call for which none is left
makes the whole formula too deep. An error of a level is therefore a fault of its own, or the limit
that one of its calls exceeds (`error_of_parseLevel`); the latter only where calls are nested that
deeply (`NestedCall`).

Under a lower limit a formula is read as under a higher one, or it is too deep (`Lowered`). In
particular no argument is given up because of the limit: one that is kept as its tokens is malformed
under all higher limits (`parse_lowered`).
-/

namespace SheetTemplate.Formula

/-! ### Nested calls -/

/-- Some tokens hold a call that stands inside `n` other calls, each of them inside the next. -/
inductive NestedCall : (n : Nat) → List Token → Prop
  | here (name : String) (front back : List Token) {inner : List Token} : Balanced inner →
      NestedCall 0 (front ++ (Item.call name inner).tokens ++ back)
  | inside (name : String) (front back : List Token) {inner : List Token} {n : Nat} :
      Balanced inner → NestedCall n inner →
      NestedCall (n + 1) (front ++ (Item.call name inner).tokens ++ back)

namespace NestedCall

variable {n cap : Nat} {ts us inner : List Token} {name : String}

theorem of_isInfix (h : NestedCall n us) (hpart : us <:+: ts) : NestedCall n ts := by
  obtain ⟨before, after, rfl⟩ := hpart
  cases h with
  | here name front back hinner =>
    simpa using here name (before ++ front) (back ++ after) hinner
  | inside name front back hinner hnested =>
    simpa using inside name (before ++ front) (back ++ after) hinner hnested

theorem of_mem_items (h : .call name inner ∈ items cap ts) : NestedCall 0 ts := by
  obtain ⟨front, back, rfl⟩ := isInfix_of_mem_items h
  exact here name front back (balanced_of_call_mem_items h)

theorem inside_of_mem_items (h : .call name inner ∈ items cap ts) (hnested : NestedCall n inner) :
    NestedCall (n + 1) ts := by
  have hinner := balanced_of_call_mem_items h
  obtain ⟨front, back, rfl⟩ := isInfix_of_mem_items h
  exact inside name front back hinner hnested

end NestedCall

/-! ### Errors of a level -/

/-- The only errors are faults. -/
def OnlyFaults {α : Type} (r : Except Error α) : Prop :=
  ∀ err, r = .error err → ∃ fault, err = .malformed fault

theorem onlyFaults_ok {α : Type} (a : α) : OnlyFaults (.ok a : Except Error α) := nofun

theorem onlyFaults_fail {α : Type} (fault : Fault) : OnlyFaults (fail fault : Except Error α) := by
  rintro err ⟨⟩
  exact ⟨fault, rfl⟩

theorem OnlyFaults.error {α β : Type} {r : Except Error α} {err : Error} (h : OnlyFaults r)
    (hr : r = .error err) : OnlyFaults (.error err : Except Error β) := by
  rintro _ ⟨⟩
  exact h err hr

theorem onlyFaults_reduce (p : Pending) (output : List Expr) : OnlyFaults (reduce p output) := by
  unfold reduce
  split
  · exact onlyFaults_ok _
  · exact onlyFaults_fail _
  · exact onlyFaults_ok _
  · exact onlyFaults_fail _
  · exact onlyFaults_fail _

theorem onlyFaults_reduceFor (op : Operator) (ps : List Pending) (output : List Expr) :
    OnlyFaults (reduceFor op ps output) := by
  induction ps generalizing output with
  | nil => exact onlyFaults_ok _
  | cons p ps ih =>
    rw [reduceFor]
    split_ifs
    · cases hreduce : reduce p output with
      | error err => exact (onlyFaults_reduce p output).error hreduce
      | ok output => exact ih output
    · exact onlyFaults_ok _

theorem onlyFaults_reduceGroup (ps : List Pending) (output : List Expr) :
    OnlyFaults (reduceGroup ps output) := by
  induction ps generalizing output with
  | nil => exact onlyFaults_fail _
  | cons p ps ih =>
    by_cases hp : p = .group
    · subst hp
      cases output with
      | nil => exact onlyFaults_fail _
      | cons inner output => exact onlyFaults_ok _
    · rw [reduceGroup_cons hp]
      cases hreduce : reduce p output with
      | error err => exact (onlyFaults_reduce p output).error hreduce
      | ok output => exact ih output

theorem onlyFaults_reduceAll (ps : List Pending) (output : List Expr) :
    OnlyFaults (reduceAll ps output) := by
  induction ps generalizing output with
  | nil => exact onlyFaults_ok _
  | cons p ps ih =>
    by_cases hp : p = .group
    · subst hp
      exact onlyFaults_fail _
    · rw [reduceAll_cons hp]
      cases hreduce : reduce p output with
      | error err => exact (onlyFaults_reduce p output).error hreduce
      | ok output => exact ih output

namespace Yard

variable {call call' : String → List Token → Except Error Expr} {y : Yard} {its : List Item}
  {err : Error}

theorem onlyFaults_sign (y : Yard) (op : Operator) : OnlyFaults (y.sign op) := by
  cases op with
  | sub | add => exact onlyFaults_ok _
  | _ => exact onlyFaults_fail _

theorem onlyFaults_operator (y : Yard) (op : Operator) : OnlyFaults (y.operator op) := by
  rw [operator]
  cases hreduce : reduceFor op y.pending y.output with
  | error err => exact (onlyFaults_reduceFor op y.pending y.output).error hreduce
  | ok p => exact onlyFaults_ok _

theorem onlyFaults_close (y : Yard) : OnlyFaults y.close := by
  rw [close]
  cases hreduce : reduceGroup y.pending y.output with
  | error err => exact (onlyFaults_reduceGroup y.pending y.output).error hreduce
  | ok p => exact onlyFaults_ok _

theorem onlyFaults_token (y : Yard) (opens : Bool) (t : Token) : OnlyFaults (y.token opens t) := by
  cases t with
  | number x =>
    rw [token]
    split_ifs
    · exact onlyFaults_ok _
    · exact onlyFaults_fail _
  | identifier name =>
    rw [token]
    split_ifs
    · exact onlyFaults_fail _
    · exact onlyFaults_ok _
    · exact onlyFaults_fail _
  | operator op =>
    rw [token]
    split_ifs
    · exact onlyFaults_sign y op
    · exact onlyFaults_operator y op
  | openParen =>
    rw [token]
    split_ifs
    · exact onlyFaults_ok _
    · exact onlyFaults_fail _
  | closeParen =>
    rw [token]
    split_ifs
    · exact onlyFaults_fail _
    · exact onlyFaults_close y
  | comma => exact onlyFaults_fail _

theorem onlyFaults_finish (y : Yard) : OnlyFaults y.finish := by
  rw [finish]
  split_ifs
  · exact onlyFaults_fail _
  · cases hreduce : reduceAll y.pending y.output with
    | error err => exact (onlyFaults_reduceAll y.pending y.output).error hreduce
    | ok output =>
      cases output with
      | nil => exact onlyFaults_fail _
      | cons e output =>
        cases output with
        | nil => exact onlyFaults_ok _
        | cons _ _ => exact onlyFaults_fail _

/-- An item fails with a fault, or as a call that is not read. -/
theorem error_of_step {opens : Bool} {item : Item} (h : y.step call opens item = .error err) :
    (∃ fault, err = .malformed fault) ∨
      ∃ name inner, item = .call name inner ∧ call name inner = .error err := by
  cases item with
  | token t => exact .inl (onlyFaults_token y opens t err h)
  | call name inner =>
    rw [step] at h
    split_ifs at h with hoperand
    · cases hcall : call name inner with
      | error err' =>
        rw [hcall] at h
        cases h
        exact .inr ⟨name, inner, rfl, hcall⟩
      | ok e =>
        rw [hcall] at h
        cases h
    · exact .inl (onlyFaults_fail _ err h)

/-- **A level fails with a fault, or with the error of one of its calls.** -/
theorem error_of_run (h : y.run call its = .error err) : (∃ fault, err = .malformed fault) ∨
    ∃ name inner, .call name inner ∈ its ∧ call name inner = .error err := by
  induction its generalizing y with
  | nil => exact .inl (onlyFaults_finish y err h)
  | cons item its ih =>
    rw [run] at h
    cases hstep : y.step call (opensNext its) item with
    | error err' =>
      rw [hstep] at h
      cases h
      refine (error_of_step hstep).imp id ?_
      rintro ⟨name, inner, rfl, hcall⟩
      exact ⟨name, inner, List.mem_cons_self, hcall⟩
    | ok y' =>
      rw [hstep] at h
      refine (ih h).imp id ?_
      rintro ⟨name, inner, hmem, hcall⟩
      exact ⟨name, inner, List.mem_cons_of_mem _ hmem, hcall⟩

end Yard

/-- Arguments fail only where one of them is too deep. -/
theorem error_of_parseArguments {parse : List Token → Except Error Expr}
    {segs : List (List Token)} {err : Error} (h : parseArguments parse segs = .error err) :
    ∃ s ∈ segs, parse s = .error err ∧ ∃ max, err = .tooDeep max := by
  induction segs with
  | nil => cases h
  | cons s segs ih =>
    rw [parseArguments] at h
    cases harg : parseArgument parse s with
    | error err' =>
      rw [harg] at h
      cases h
      refine ⟨s, List.mem_cons_self, ?_⟩
      unfold parseArgument at harg
      split at harg
      · cases harg
      · rename_i max hparse
        cases harg
        exact ⟨hparse, max, rfl⟩
      · cases harg
    | ok arg =>
      rw [harg] at h
      have hrest : parseArguments parse segs = .error err := by
        cases hargs : parseArguments parse segs with
        | error err' =>
          rw [hargs] at h
          exact h
        | ok args =>
          rw [hargs] at h
          cases h
      obtain ⟨s', hs', hparse⟩ := ih hrest
      exact ⟨s', List.mem_cons_of_mem _ hs', hparse⟩

/-- A call fails only where one of its arguments is too deep. -/
theorem error_of_parseCall {parse : List Token → Except Error Expr} {name : String}
    {inner : List Token} {err : Error} (hinner : Balanced inner)
    (h : parseCall parse name inner = .error err) :
    ∃ s, s <:+: inner ∧ parse s = .error err ∧ ∃ max, err = .tooDeep max := by
  rw [parseCall] at h
  cases hargs : parseArguments parse (if inner = [] then [] else splitAtCommas 0 inner) with
  | ok args =>
    rw [hargs] at h
    cases h
  | error err' =>
    rw [hargs] at h
    cases h
    obtain ⟨s, hs, hparse⟩ := error_of_parseArguments hargs
    split_ifs at hs with hnil
    · cases hs
    · exact ⟨s, isInfix_of_mem_splitAtCommas hinner hs, hparse⟩

/-- **A level fails with a fault, or because of the limit on nested calls**, and then it holds a
call inside as many others as the limit allows. -/
theorem error_of_parseLevel {l : Limits} {n : Nat} {ts : List Token} {err : Error}
    (h : parseLevel l n ts = .error err) :
    (∃ fault, err = .malformed fault) ∨ err = .tooDeep l.maxDepth ∧ NestedCall n ts := by
  induction n generalizing ts err with
  | zero =>
    refine (Yard.error_of_run h).imp id ?_
    rintro ⟨name, inner, hmem, hcall⟩
    cases hcall
    exact ⟨rfl, .of_mem_items hmem⟩
  | succ n ih =>
    refine (Yard.error_of_run h).imp id ?_
    rintro ⟨name, inner, hmem, hcall⟩
    obtain ⟨s, hs, hparse, max, rfl⟩ :=
      error_of_parseCall (balanced_of_call_mem_items hmem) hcall
    -- what makes a call fail is not a fault of an argument
    obtain ⟨_, ⟨⟩⟩ | ⟨hmax, hnested⟩ := ih hparse
    exact ⟨hmax, .inside_of_mem_items hmem (hnested.of_isInfix hs)⟩

/-! ### Lower limits -/

/-- A result under the limit `m` is that under a higher one, or too deep. -/
def Lowered {α : Type} (m : Nat) (r r' : Except Error α) : Prop :=
  r = r' ∨ r = .error (.tooDeep m)

namespace Lowered

variable {m : Nat} {call call' : String → List Token → Except Error Expr}
  {parse parse' : List Token → Except Error Expr}

theorem step (hcall : ∀ name inner, Lowered m (call name inner) (call' name inner)) (y : Yard)
    (opens : Bool) (item : Item) :
    Lowered m (y.step call opens item) (y.step call' opens item) := by
  cases item with
  | token t => exact .inl rfl
  | call name inner =>
    rw [Yard.step, Yard.step]
    split_ifs
    · rcases hcall name inner with heq | hdeep
      · rw [heq]
        exact .inl rfl
      · rw [hdeep]
        exact .inr rfl
    · exact .inl rfl

theorem run (hcall : ∀ name inner, Lowered m (call name inner) (call' name inner)) (y : Yard)
    (its : List Item) : Lowered m (y.run call its) (y.run call' its) := by
  induction its generalizing y with
  | nil => exact .inl rfl
  | cons item its ih =>
    rw [Yard.run, Yard.run]
    rcases step hcall y (Yard.opensNext its) item with heq | hdeep
    · rw [heq]
      cases y.step call' (Yard.opensNext its) item with
      | error err => exact .inl rfl
      | ok y' => exact ih y'
    · rw [hdeep]
      exact .inr rfl

/-- An argument that is too deep is not kept as its tokens. -/
theorem parseArgument {s : List Token} (hparse : Lowered m (parse s) (parse' s)) :
    Lowered m (parseArgument parse s) (parseArgument parse' s) := by
  rcases hparse with heq | hdeep
  · rw [Formula.parseArgument, Formula.parseArgument, heq]
    exact .inl rfl
  · rw [Formula.parseArgument, hdeep]
    exact .inr rfl

theorem parseArguments (hparse : ∀ s, Lowered m (parse s) (parse' s)) (segs : List (List Token)) :
    Lowered m (parseArguments parse segs) (parseArguments parse' segs) := by
  induction segs with
  | nil => exact .inl rfl
  | cons s segs ih =>
    rw [Formula.parseArguments, Formula.parseArguments]
    rcases parseArgument (hparse s) with heq | hdeep
    · rw [heq]
      cases Formula.parseArgument parse' s with
      | error err => exact .inl rfl
      | ok arg =>
        rcases ih with heq | hdeep
        · rw [heq]
          exact .inl rfl
        · rw [hdeep]
          exact .inr rfl
    · rw [hdeep]
      exact .inr rfl

theorem parseCall (hparse : ∀ s, Lowered m (parse s) (parse' s)) (name : String)
    (inner : List Token) :
    Lowered m (parseCall parse name inner) (parseCall parse' name inner) := by
  rw [Formula.parseCall, Formula.parseCall]
  rcases parseArguments hparse (if inner = [] then [] else splitAtCommas 0 inner) with heq | hdeep
  · rw [heq]
    exact .inl rfl
  · rw [hdeep]
    exact .inr rfl

end Lowered

variable {l : Limits} {d : Nat}

/-- **With less nesting to spend, a level is read as with more, or it is too deep.** -/
theorem parseLevel_lowered (l : Limits) (d n more : Nat) (ts : List Token) :
    Lowered l.maxDepth (parseLevel l n ts) (parseLevel { l with maxDepth := d } (n + more) ts) := by
  induction n generalizing ts with
  | zero =>
    have hdeep : ∀ (call' : String → List Token → Except Error Expr) name inner,
        Lowered l.maxDepth (.error (.tooDeep l.maxDepth)) (call' name inner) :=
      fun _ _ _ => .inr rfl
    cases more with
    | zero => exact Lowered.run (hdeep _) .start _
    | succ more => exact Lowered.run (hdeep _) .start _
  | succ n ih =>
    rw [Nat.add_right_comm]
    exact Lowered.run (Lowered.parseCall ih) .start _

theorem parseLevel_eq_malformed {n n' : Nat} {ts : List Token} {fault : Fault} (hn : n ≤ n')
    (h : parseLevel l n ts = .error (.malformed fault)) :
    parseLevel { l with maxDepth := d } n' ts = .error (.malformed fault) := by
  obtain ⟨more, rfl⟩ := Nat.exists_eq_add_of_le hn
  rcases parseLevel_lowered l d n more ts with heq | hdeep
  · rw [← heq, h]
  · cases h.symm.trans hdeep

theorem parseTokens_lowered (hd : l.maxDepth ≤ d) (depth : Nat) (ts : List Token) :
    Lowered l.maxDepth (parseTokens l depth ts)
      (parseTokens { l with maxDepth := d } depth ts) := by
  obtain ⟨more, hmore⟩ := Nat.exists_eq_add_of_le (Nat.sub_le_sub_right hd depth)
  have h := parseLevel_lowered l d (l.maxDepth - depth) more ts
  rwa [← hmore] at h

theorem parseChars_lowered (hd : l.maxDepth ≤ d) (cs : List Char) :
    Lowered l.maxDepth (parseChars l cs) (parseChars { l with maxDepth := d } cs) := by
  cases cs with
  | nil => exact .inl rfl
  | cons c cs =>
    by_cases hc : c = '='
    · subst hc
      rw [parseChars, parseChars]
      split_ifs
      · exact .inl rfl
      · cases tokenize l.maxLength cs with
        | nil => exact .inl rfl
        | cons t ts => exact parseTokens_lowered hd 0 (t :: ts)
    · exact .inl (by simp [parseChars, hc])

/-! ### Trees -/

namespace Expr

mutual

/-- The arguments of a tree that are no expressions. -/
def rejected : Expr → List (List Token)
  | number _ | identifier _ => []
  | binary _ left right => left.rejected ++ right.rejected
  | negate operand => operand.rejected
  | group inner => inner.rejected
  | call _ args => rejectedOfAll args
  | invalid tokens => [tokens]

/-- The arguments of some trees that are no expressions. -/
def rejectedOfAll : List Expr → List (List Token)
  | [] => []
  | e :: es => e.rejected ++ rejectedOfAll es

end

theorem exists_of_mem_rejectedOfAll {es : List Expr} {ts : List Token}
    (h : ts ∈ rejectedOfAll es) : ∃ e ∈ es, ts ∈ e.rejected := by
  induction es with
  | nil => cases h
  | cons e es ih =>
    rcases List.mem_append.1 h with h | h
    · exact ⟨e, List.mem_cons_self, h⟩
    · obtain ⟨e', he', h⟩ := ih h
      exact ⟨e', List.mem_cons_of_mem _ he', h⟩

end Expr

/-- The trees that are read with `n` calls of nesting to spend: each call spends one on its
arguments, and an argument is kept as its tokens where these have a fault. -/
inductive ReadTree (l : Limits) : (n : Nat) → Expr → Prop
  | number {n : Nat} (x : Float) : ReadTree l n (.number x)
  | identifier {n : Nat} (name : String) : ReadTree l n (.identifier name)
  | binary {n : Nat} {left right : Expr} (op : Operator) : ReadTree l n left →
      ReadTree l n right → ReadTree l n (.binary op left right)
  | negate {n : Nat} {e : Expr} : ReadTree l n e → ReadTree l n (.negate e)
  | group {n : Nat} {e : Expr} : ReadTree l n e → ReadTree l n (.group e)
  | call {n : Nat} {args : List Expr} (name : String) : (∀ arg ∈ args, ReadTree l n arg) →
      ReadTree l (n + 1) (.call name args)
  | invalid {n : Nat} {ts : List Token} {fault : Fault} :
      parseLevel l n ts = .error (.malformed fault) → ReadTree l n (.invalid ts)

theorem readTree_of_argumentTree {depth : Nat} {s : List Token} {e : Expr}
    (htree : ∀ e, parseTokens l depth s = .ok e → ReadTree l (l.maxDepth - depth) e)
    (h : ArgumentTree l depth s e) : ReadTree l (l.maxDepth - depth) e := by
  cases h with
  | tree hparse => exact htree e hparse
  | invalid hparse hnot =>
    obtain ⟨fault, rfl⟩ | ⟨rfl, -⟩ := error_of_parseLevel hparse
    · exact .invalid hparse
    · exact absurd rfl (hnot l.maxDepth)

theorem readTree_of_derives {depth : Nat} {t : Tier} {ts : List Token} {e : Expr}
    (hargs : ∀ us e, depth + 1 ≤ l.maxDepth → parseTokens l (depth + 1) us = .ok e →
      ReadTree l (l.maxDepth - (depth + 1)) e)
    (h : Derives l depth t ts e) : ReadTree l (l.maxDepth - depth) e := by
  induction h with
  | number x => exact .number x
  | identifier name => exact .identifier name
  | group _ ih => exact .group ih
  | @call name inner args hdepth hinner =>
    have hspend : l.maxDepth - depth = l.maxDepth - (depth + 1) + 1 := by omega
    rw [hspend]
    refine .call name fun arg harg => ?_
    cases hinner with
    | none => cases harg
    | some _ _ _ hall =>
      obtain ⟨s, -, htree⟩ := exists_of_forall₂ hall harg
      exact readTree_of_argumentTree (fun e => hargs s e hdepth) htree
  | minus _ ih => exact .negate ih
  | plus _ ih => exact ih
  | @binary _ op _ _ _ _ _ _ _ ihl ihr => exact .binary op ihl ihr
  | lift _ ih => exact ih

theorem readTree_of_parseTokens {depth : Nat} {ts : List Token} {e : Expr}
    (h : parseTokens l depth ts = .ok e) : ReadTree l (l.maxDepth - depth) e := by
  -- on the nesting that is left, which is less inside a call
  induction hn : l.maxDepth - depth generalizing depth ts e with
  | zero =>
    rw [← hn]
    refine readTree_of_derives (fun us e' hdepth => ?_) (derives_of_parseTokens h)
    omega
  | succ n ih =>
    rw [← hn]
    refine readTree_of_derives (fun us e' hdepth hparse => ?_) (derives_of_parseTokens h)
    have hn' : l.maxDepth - (depth + 1) = n := by omega
    rw [hn']
    exact ih hparse hn'

namespace ReadTree

variable {n : Nat} {e : Expr}

theorem depth_le (h : ReadTree l n e) : e.depth ≤ n := by
  induction h with
  | number _ | identifier _ | invalid _ => exact Nat.zero_le _
  | binary _ _ _ ihl ihr => exact Nat.max_le.2 ⟨ihl, ihr⟩
  | negate _ ih => exact ih
  | group _ ih => exact ih
  | call _ _ ih => exact Nat.succ_le_succ (Expr.depthOfAll_le ih)

/-- An argument that is kept as its tokens is malformed, with the nesting that is left there. -/
theorem exists_fault_of_mem_rejected (h : ReadTree l n e) {ts : List Token}
    (hmem : ts ∈ e.rejected) :
    ∃ k ≤ n, ∃ fault, parseLevel l k ts = .error (.malformed fault) := by
  induction h with
  | number _ => cases hmem
  | identifier _ => cases hmem
  | binary _ _ _ ihl ihr =>
    rcases List.mem_append.1 hmem with hmem | hmem
    · exact ihl hmem
    · exact ihr hmem
  | negate _ ih => exact ih hmem
  | group _ ih => exact ih hmem
  | call _ _ ih =>
    obtain ⟨arg, harg, hmem⟩ := Expr.exists_of_mem_rejectedOfAll hmem
    obtain ⟨k, hk, hfault⟩ := ih arg harg hmem
    exact ⟨k, hk.trans (Nat.le_succ _), hfault⟩
  | @invalid n ts' fault hparse =>
    obtain rfl := List.mem_singleton.1 hmem
    exact ⟨n, le_rfl, fault, hparse⟩

end ReadTree

/-! ### Formulas -/

/-- **The limit on nested calls only ever rejects.** Under a lower limit a formula has the same tree
or the same error as under a higher one, or it is too deep, and then it holds a call inside as many
others as the limit allows. A tree is no deeper than the limit, and its arguments that are kept as
their tokens are malformed under the higher limit as well. -/
theorem parse_lowered (hd : l.maxDepth ≤ d) (formula : String) :
    (parse l formula = parse { l with maxDepth := d } formula ∨
      parse l formula = .error (.tooDeep l.maxDepth)) ∧
    (parse l formula = .error (.tooDeep l.maxDepth) →
      NestedCall l.maxDepth (tokensIn true formula.toList.tail)) ∧
    ∀ e, parse l formula = .ok e → e.depth ≤ l.maxDepth ∧
      ∀ ts ∈ e.rejected, ∃ fault,
        parseTokens { l with maxDepth := d } 0 ts = .error (.malformed fault) := by
  refine ⟨parseChars_lowered hd formula.toList, fun hdeep => ?_, fun e he => ?_⟩
  · have hparse := parseTokens_of_parse hdeep nofun nofun nofun
    obtain ⟨_, ⟨⟩⟩ | ⟨-, hnested⟩ := error_of_parseLevel hparse
    exact hnested
  · have htree := readTree_of_parseTokens (parseTokens_of_parse he nofun nofun nofun)
    refine ⟨htree.depth_le, fun ts hts => ?_⟩
    obtain ⟨k, hk, fault, hfault⟩ := htree.exists_fault_of_mem_rejected hts
    exact ⟨fault, parseLevel_eq_malformed (hk.trans hd) hfault⟩

/-- A call inside two others, and a number in its place, after an argument that is no expression. -/
theorem parse_lowered_max :
    let l : Limits := { maxDepth := 2 }
    let l' : Limits := { l with maxDepth := 3 }
    let deep := "=max(2 3; min(abs(1)))"
    let flat := "=max(2 3; min(1))"
    (l.maxDepth ≤ l'.maxDepth ∧ parse l deep = .error (.tooDeep 2)) ∧
      NestedCall 2 (tokensIn true deep.toList.tail) ∧
      ∃ e, parse l flat = .ok e ∧ parse l' flat = .ok e ∧ e.depth ≤ 2 ∧
        e.rejected = [[.number 2, .number 3]] ∧
        ∀ ts ∈ e.rejected, ∃ fault, parseTokens l' 0 ts = .error (.malformed fault) := by
  intro l l' deep flat
  have hd : l.maxDepth ≤ l'.maxDepth := by decide
  have hdeep : parse { maxDepth := 2 } "=max(2 3; min(abs(1)))" = .error (.tooDeep 2) := rfl
  obtain ⟨e, he, hrejected⟩ : ∃ e, parse { maxDepth := 2 } "=max(2 3; min(1))" = .ok e ∧
      e.rejected = [[.number 2, .number 3]] := ⟨_, rfl, by decide +kernel⟩
  obtain ⟨hsame, -, htree⟩ := parse_lowered hd flat
  obtain ⟨hdepth, hfaults⟩ := htree e he
  refine ⟨⟨hd, hdeep⟩, (parse_lowered hd deep).2.1 hdeep, e, he, ?_, hdepth, hrejected, hfaults⟩
  rcases hsame with heq | hlimit
  · exact heq.symm.trans he
  · cases he.symm.trans hlimit

end SheetTemplate.Formula
