import SheetTemplate.Formula.Eval
import SheetTemplate.Proofs.Cell.Address
import SheetTemplate.Proofs.Formula.RoundTrip

/-!
# The value of an exported formula

Exporting a formula changes its names and nothing of its value: a tree has the value that its
exported tree has where references have the values of the names that they are written for
(`eval_exported`). This also holds for calls, since a function is exported under a name of the same
function (`call_exportNameOf`). Dropping the marks of absolute references from an exported text is
the same as writing the references without marks (`unmarkedChars_body`), so the text without marks
is read as the exported tree (`parse_unmarked_body`).
-/

namespace SheetTemplate.Formula

open Cell

/-! ### Functions -/

namespace Function

theorem nodup_names : (catalogue.map Function.name).Nodup := by decide

theorem upper_name : ∀ name ∈ catalogue.map Function.name, Text.upper name = name := by
  decide +kernel

/-- Every built-in function is found under its name. -/
theorem find?_name {f : Function} (h : f ∈ catalogue) : find? f.name = some f := by
  have hupper := upper_name f.name (List.mem_map_of_mem h)
  cases hfind : find? f.name with
  | none =>
    have hnone := List.find?_eq_none.1 hfind f h
    simp [hupper] at hnone
  | some g =>
    have hname : g.name = Text.upper f.name := by simpa using List.find?_some hfind
    rw [hupper] at hname
    rw [List.inj_on_of_nodup_map nodup_names (List.mem_of_find?_eq_some hfind) h hname]

/-- A function is exported under its own name, or it is an alias of one of two functions. -/
theorem native_or_alias : ∀ f ∈ catalogue, f.exportName = f.name ∨
    f.exportName = "SUM" ∧ f.apply = sum ∨ f.exportName = "AVERAGE" ∧ f.apply = average := by
  simp [catalogue, native]

theorem find?_exportName {f : Function} (h : f ∈ catalogue) :
    (find? f.exportName).map Function.apply = some f.apply := by
  rcases native_or_alias f h with hname | ⟨hname, happly⟩ | ⟨hname, happly⟩
  · rw [hname, find?_name h, Option.map_some]
  · rw [hname, happly]
    rfl
  · rw [hname, happly]
    rfl

/-- **A function is exported under a name of the same function.** -/
theorem call_exportNameOf (name : String) (xs : List Float) :
    call (exportNameOf name) xs = call name xs := by
  unfold exportNameOf
  cases hfind : find? name with
  | none => rfl
  | some f =>
    have hexport := find?_exportName (List.mem_of_find?_eq_some hfind)
    simp only [call, hfind]
    cases hg : find? f.exportName with
    | none => simp [hg] at hexport
    | some g =>
      rw [hg, Option.map_some, Option.some.injEq] at hexport
      rw [← hexport]

end Function

/-! ### Values -/

namespace Expr

mutual

/-- The value of a tree depends on the values of its names only. -/
theorem eval_congr {value value' : String → Float} : (e : Expr) →
    (∀ name ∈ e.names, value name = value' name) → e.eval value = e.eval value'
  | number _, _ => rfl
  | identifier _, h => h _ List.mem_cons_self
  | binary op left right, h => by
    rw [eval, eval, eval_congr left fun name hname => h name (List.mem_append_left _ hname),
      eval_congr right fun name hname => h name (List.mem_append_right _ hname)]
  | negate operand, h => congrArg Neg.neg (eval_congr operand h)
  | group inner, h => eval_congr inner h
  | call _ args, h => congrArg _ (evalAll_congr args h)
  | invalid _, _ => rfl

theorem evalAll_congr {value value' : String → Float} : (es : List Expr) →
    (∀ name ∈ namesOfAll es, value name = value' name) → evalAll value es = evalAll value' es
  | [], _ => rfl
  | e :: es, h => by
    rw [evalAll, evalAll, eval_congr e fun name hname => h name (List.mem_append_left _ hname),
      evalAll_congr es fun name hname => h name (List.mem_append_right _ hname)]

end

mutual

/-- **Exporting keeps the value**, where every reference has the value of its name. -/
theorem eval_exported (value : String → Float) (reference : String → String) : (e : Expr) →
    (e.exported reference).eval value = e.eval fun name => value (reference name)
  | number _ => rfl
  | identifier _ => rfl
  | binary op left right => by
    rw [exported, eval, eval, eval_exported value reference left,
      eval_exported value reference right]
  | negate (number x) => by
    rw [exported]
    split_ifs <;> rfl
  | negate (identifier name) => rfl
  | negate (binary op left right) =>
    congrArg Neg.neg (eval_exported value reference (binary op left right))
  | negate (negate operand) => congrArg Neg.neg (eval_exported value reference (negate operand))
  | negate (group inner) => congrArg Neg.neg (eval_exported value reference (group inner))
  | negate (call name args) => congrArg Neg.neg (eval_exported value reference (call name args))
  | negate (invalid _) => rfl
  | group inner => eval_exported value reference inner
  | call name args => by
    rw [exported, eval, eval, Function.call_exportNameOf, evalAll_exported value reference args]
  | invalid _ => rfl

theorem evalAll_exported (value : String → Float) (reference : String → String) :
    (es : List Expr) → evalAll value (exportedAll reference es) =
      evalAll (fun name => value (reference name)) es
  | [] => rfl
  | e :: es => by
    rw [exportedAll, evalAll, evalAll, eval_exported value reference e,
      evalAll_exported value reference es]

end

end Expr

/-! ### Marks -/

theorem unmarkedChars_word {name : String} (h : IsWord name) :
    unmarkedChars name.toList = name.toList :=
  unmarkedChars_of_isNameChar fun _ => h.isNameChar

theorem unmarkedChars_chars {x : Float} (h : x.isFinite = true) :
    unmarkedChars (Number.chars x) = Number.chars x := by
  have hl := Number.Layout.hasDigits_shortest .up x.abs
  have hsign : unmarkedChars (Number.sign x) = Number.sign x := by
    unfold Number.sign
    split_ifs <;> rfl
  have hwhole : unmarkedChars (Number.Layout.shortest .up x.abs).whole =
      (Number.Layout.shortest .up x.abs).whole :=
    unmarkedChars_of_isNameChar fun c hc =>
      isNameChar_iff.2 (.inl (Number.Layout.isDigit_of_mem_whole hl hc))
  have hfraction : unmarkedChars (Number.Layout.shortest .up x.abs).fraction =
      (Number.Layout.shortest .up x.abs).fraction :=
    unmarkedChars_of_isNameChar fun c hc =>
      isNameChar_iff.2 (.inl (Number.Layout.isDigit_of_mem_fraction hl hc))
  rw [chars_of_isFinite h, unmarkedChars_append, hsign, Number.Layout.plain, unmarkedChars_append,
    hwhole]
  split_ifs
  · rfl
  · rw [unmarkedChars_cons (by decide), hfraction]

theorem unmarkedChars_argsBody {reference reference' : String → String} {args : List Expr}
    (h : ∀ arg ∈ args, unmarkedChars (arg.body reference) = arg.body reference') :
    unmarkedChars (Expr.argsBody reference args) = Expr.argsBody reference' args := by
  induction args with
  | nil => rfl
  | cons arg args ih =>
    have harg := h arg List.mem_cons_self
    cases args with
    | nil => exact harg
    | cons arg' args =>
      have hrest := ih fun a ha => h a (List.mem_cons_of_mem _ ha)
      show unmarkedChars (arg.body reference ++ ',' :: Expr.argsBody reference (arg' :: args)) = _
      rw [unmarkedChars_append, unmarkedChars_cons (by decide), harg, hrest]
      rfl

/-- Without marks, the text of a tree is the text with references without marks. -/
theorem unmarkedChars_body {named : String → Prop} {reference : String → String} {t : Tier}
    {e : Expr} (h : Built named t e) : unmarkedChars (e.body reference) =
      e.body fun name => unmarked (reference name) := by
  induction h with
  | number hfin => exact unmarkedChars_chars hfin
  | identifier _ => exact String.toList_ofList.symm
  | group _ ih =>
    rw [Expr.body, unmarkedChars_append, unmarkedChars_cons (by decide), ih]
    rfl
  | @call name args hword _ ih =>
    rw [Expr.body, unmarkedChars_append, unmarkedChars_append,
      unmarkedChars_word (isWord_exportNameOf hword), unmarkedChars_cons (by decide),
      unmarkedChars_argsBody ih]
    rfl
  | negate _ ih => rw [Expr.body, unmarkedChars_cons (by decide), ih, Expr.body]
  | @binary t op left right _ _ _ ihl ihr =>
    have hop : unmarkedChars op.chars = op.chars := by cases op <;> rfl
    rw [Expr.body, unmarkedChars_append, unmarkedChars_append, ihl, ihr, hop, Expr.body]
  | lift _ ih => exact ih

/-- **An exported formula reads back without its marks**, as the tree of the formula with references
without marks for its names. -/
theorem parse_unmarked_body {l l' : Limits} {reference : String → String} {formula : String}
    {e : Expr} (h : parse l formula = .ok e) (hplain : e.isPlain = true)
    (hwords : ∀ name ∈ e.names, IsWord (unmarked (reference name)))
    (hl : l'.Exceed (unmarked (body l reference formula)).length) :
    parse l' ("=" ++ unmarked (body l reference formula)) =
      .ok (e.exported fun name => unmarked (reference name)) := by
  have hbuilt : Built (fun name => IsWord (unmarked (reference name))) .comparison e :=
    built_of_parse h hplain hwords
  have hbody : unmarked (body l reference formula) =
      String.ofList (e.body fun name => unmarked (reference name)) := by
    rw [body_of_parse h, unmarked, String.toList_ofList, unmarkedChars_body hbuilt]
  rw [hbody, String.length_ofList] at hl
  rw [hbody, parse_ofList, parseChars_body hbuilt hl]

end SheetTemplate.Formula
