import SheetTemplate.Proofs.Formula.TreeTokens
import SheetTemplate.Proofs.Template.Meaning
import SheetTemplate.Proofs.Template.References

/-!
# Names and calls

A name of a formula stands for a value, unless an opening parenthesis follows: then it is that of a
function. `operandNames` lists the former, which are those that the export writes as references
(`pieceNames_pieces`). A tree refers to all of them, in their order, but also to the names of calls
in arguments that are no expressions, and there `RefersToOperands` fails.

The check of a template, the search for self references and the plan of a worksheet row go by the
names that a tree refers to, so they react to the same names (`names_of_operands`).
-/

namespace SheetTemplate

namespace Formula

/-- The names that no opening parenthesis follows. -/
def operandNames : List Token → List String
  | [] => []
  | .identifier name :: ts => if opens ts then operandNames ts else name :: operandNames ts
  | _ :: ts => operandNames ts

/-- The tree of a formula refers to the names that no opening parenthesis follows, each once and in
the order of their first appearance. -/
def RefersToOperands (l : Limits) (formula : String) : Prop :=
  ∀ e, parse l formula = .ok e → TokensUnreached l formula →
    e.identifiers = (operandNames (tokensOfFormula formula)).eraseDups

/-! ### The names among tokens -/

theorem operandNames_eq_tokenwise (ts : List Token) : operandNames ts = tokenwise
    (fun
      | .identifier name => [name]
      | _ => [])
    (fun _ => []) ts := by
  induction ts with
  | nil => rfl
  | cons t ts ih =>
    cases t with
    | identifier name => by_cases h : opens ts = true <;> simp [operandNames, tokenwise, h, ih]
    | _ => simp [operandNames, tokenwise, ih]

/-- The names that are written as references are those of operands. -/
theorem pieceNames_tokenPieces (ts : List Token) :
    pieceNames (tokenPieces ts) = operandNames ts := by
  induction ts with
  | nil => rfl
  | cons t ts ih =>
    cases t with
    | identifier name => by_cases h : opens ts = true <;> simp [tokenPieces, operandNames, h, ih]
    | _ => exact ih

/-- The names that a tree writes as references are the names of operands of its formula. -/
theorem pieceNames_pieces {l : Limits} {formula : String} {e : Expr}
    (hcap : TokensUnreached l formula) (h : parse l formula = .ok e) :
    pieceNames e.pieces = operandNames (tokensOfFormula formula) := by
  rw [e.pieces_eq_tokenPieces, pieceNames_tokenPieces, operandNames_eq_tokenwise,
    operandNames_eq_tokenwise]
  exact (hcap.readOff h).tokenwise_eq rfl

end Formula

/-! ### What reacts to names -/

open Formula in
/-- **A formula refers to its names that no opening parenthesis follows**, which are those that its
export writes as references, and to those of calls in arguments that are no expressions. Where there
are no such calls, it refers to the former, each once and in the order of their first appearance.
Self references, the problems of a column and the references of a worksheet row come from the names
that a formula refers to, so a name of a function is none of them but for these calls. -/
theorem Column.names_of_operands {l : Limits} {c : Column} {formula : String} {e : Expr}
    (hformula : c.formula = some formula) (hparse : parse l formula = .ok e)
    (hcap : TokensUnreached l formula) :
    let operands := operandNames (tokensOfFormula formula)
    (pieceNames (pieces l formula.toList) = operands ∧ e.identifiers.Nodup ∧
      operands.Sublist e.names ∧ e.names.Perm (operands ++ e.strayCalls) ∧
      e.identifiers = e.names.eraseDups) ∧
    (e.names = operands ↔ e.strayCalls = []) ∧
    (e.strayCalls = [] → e.identifiers = operands.eraseDups) ∧
    (c.plan l = .selfReference ↔ c.id ∈ operands ∨ c.id ∈ e.strayCalls) ∧
    (∀ columns known place i, c.isComputed = true →
      (i ∈ Template.columnIssues l columns known c place ↔
        ∃ name, (name ∈ operands ∨ name ∈ e.strayCalls) ∧
          Template.nameIssue columns known c.id place name = some i)) ∧
    ∀ columns refs name reference,
      (name, reference) ∈ RowPlan.usedRefs l (.ofColumns columns) refs formula ↔
        refs.get? name = some reference ∧ (∀ c' ∈ columns, c'.id ≠ name) ∧
          (name ∈ operands ∨ name ∈ e.strayCalls) := by
  intro operands
  have hpieces : pieceNames e.pieces = operands := pieceNames_pieces hcap hparse
  have hsub : operands.Sublist e.names := hpieces ▸ e.pieceNames_sublist
  have hperm : e.names.Perm (operands ++ e.strayCalls) := hpieces ▸ e.names_perm
  have hmem : ∀ name, name ∈ e.names ↔ name ∈ operands ∨ name ∈ e.strayCalls :=
    fun name => hperm.mem_iff.trans List.mem_append
  have hidentifiers : ∀ name, name ∈ e.identifiers ↔ name ∈ operands ∨ name ∈ e.strayCalls :=
    fun name => List.mem_eraseDups.trans (hmem name)
  have hnames : e.names = operands ↔ e.strayCalls = [] := by
    constructor
    · intro heq
      have hlength := hperm.length_eq
      rw [heq, List.length_append] at hlength
      exact List.length_eq_zero_iff.1 (by omega)
    · intro hstray
      rw [hstray, List.append_nil] at hperm
      exact (hsub.eq_of_length hperm.length_eq.symm).symm
  have htree : c.tree? l = some e := Column.tree?_eq_some_iff.2 ⟨formula, hformula, hparse⟩
  refine ⟨⟨?_, Template.nodup_eraseDups _, hsub, hperm, rfl⟩, hnames, ?_, ?_, ?_, ?_⟩
  · rw [parse] at hparse
    rw [← hpieces, pieces, hparse]
  · intro hstray
    rw [Expr.identifiers, hnames.2 hstray]
  · rw [← hidentifiers, Column.plan_eq, htree]
    by_cases href : e.references c.id = true
    · simp only [href, if_true, true_iff]
      exact List.contains_iff_mem.1 href
    · simp only [href, Bool.false_eq_true, if_false, reduceCtorEq, false_iff]
      exact fun hid => href (List.contains_iff_mem.2 hid)
  · intro columns known place i hc
    rw [Template.columnIssues_of_tree?_eq_some hc htree place, List.mem_filterMap]
    simp only [hidentifiers]
  · intro columns refs name reference
    rw [RowPlan.mem_usedRefs_iff]
    simp only [hparse, Except.ok.injEq, exists_eq_left', hmem]

/-- An argument that is no expression names an operand, and a call inside another one is read. -/
theorem Column.names_of_operands_invalid :
    let formula := "=max(tarief+; abs(km) * tarief)"
    ∃ e, Formula.parse {} formula = .ok e ∧ Formula.TokensUnreached {} formula ∧
      e.strayCalls = [] ∧ e.identifiers = ["tarief", "km"] ∧
      Formula.operandNames (Formula.tokensOfFormula formula) = ["tarief", "km", "tarief"] ∧
      Column.plan {} ⟨"abs", .computed, some formula⟩ ≠ .selfReference := by
  intro formula
  have hcap : Formula.TokensUnreached {} "=max(tarief+; abs(km) * tarief)" :=
    Formula.tokensUnreached_of_length_le (by decide +kernel)
  have hoperands : Formula.operandNames (Formula.tokensOfFormula
      "=max(tarief+; abs(km) * tarief)") = ["tarief", "km", "tarief"] := by
    decide +kernel
  obtain ⟨e, he, hstray⟩ : ∃ e, Formula.parse {} "=max(tarief+; abs(km) * tarief)" = .ok e ∧
      e.strayCalls = [] := ⟨_, rfl, by decide +kernel⟩
  obtain ⟨-, -, hidentifiers, hplan, -⟩ :=
    Column.names_of_operands (c := ⟨"abs", .computed, some formula⟩) rfl he hcap
  rw [hstray, hoperands] at hidentifiers hplan
  refine ⟨e, he, hcap, hstray, (hidentifiers rfl).trans (by decide), hoperands, ?_⟩
  exact fun hself => absurd (hplan.1 hself) (by decide)

/-- The name of a call in an argument that is no expression counts as the name of a value. -/
theorem Formula.not_refersToOperands_call : ¬ RefersToOperands {} "=SUM(tarief()+)" := by
  intro h
  have hcap : TokensUnreached {} "=SUM(tarief()+)" :=
    tokensUnreached_of_length_le (by decide +kernel)
  obtain ⟨e, he, hnames⟩ : ∃ e, parse {} "=SUM(tarief()+)" = .ok e ∧
      e.identifiers = ["tarief"] := ⟨_, rfl, by decide +kernel⟩
  have hsame := h e he hcap
  rw [hnames] at hsame
  revert hsame
  decide +kernel

end SheetTemplate
