import SheetTemplate.Formula.Body
import SheetTemplate.Proofs.Formula.Shape

/-!
# Reading an exported formula

A tree is exported without blanks and without parentheses of its own. Its text is lexed as one token
for each piece that was written, up to a minus sign in front of a literal, and the tokens derive the
same tree with its names replaced (`exists_readsBack`). Hence the exported text of a formula
reads back as `Expr.exported` of its tree.
-/

namespace SheetTemplate.Formula

namespace Expr

mutual

/-- The tree that the text of a tree is read as: its names are references, its function names those
of worksheets, and a minus sign in front of a literal without sign belongs to the literal. -/
def exported (reference : String → String) : Expr → Expr
  | number x => number x
  | identifier name => identifier (reference name)
  | binary op left right => binary op (left.exported reference) (right.exported reference)
  | negate (number x) => if Number.isSigned x then negate (number x) else number (-x)
  | negate operand => negate (operand.exported reference)
  | group inner => group (inner.exported reference)
  | call name args => call (Function.exportNameOf name) (exportedAll reference args)
  | invalid tokens => invalid tokens

/-- The trees that the texts of some trees are read as. -/
def exportedAll (reference : String → String) : List Expr → List Expr
  | [] => []
  | e :: es => e.exported reference :: exportedAll reference es

end

variable {reference : String → String}

theorem exportedAll_eq_map (es : List Expr) :
    exportedAll reference es = es.map (exported reference) := by
  induction es with
  | nil => rfl
  | cons e es ih => rw [exportedAll, ih, List.map_cons]

theorem argsBody_eq_intercalate (es : List Expr) :
    argsBody reference es = [','].intercalate (es.map (body reference)) := by
  refine eq_intercalate_map (by rw [argsBody]) (fun e => by rw [argsBody]) (fun e e' es => ?_) es
  rw [argsBody, List.append_assoc, List.singleton_append]
  exact List.cons_ne_nil _ _

theorem depth_le_depthOfAll {es : List Expr} {e : Expr} (h : e ∈ es) : e.depth ≤ depthOfAll es := by
  induction es with
  | nil => cases h
  | cons e' es ih =>
    rw [depthOfAll]
    rcases List.mem_cons.1 h with rfl | h
    · exact Nat.le_max_left _ _
    · exact (ih h).trans (Nat.le_max_right _ _)

theorem depthOfAll_le {es : List Expr} {n : Nat} (h : ∀ e ∈ es, e.depth ≤ n) :
    depthOfAll es ≤ n := by
  induction es with
  | nil => exact Nat.zero_le n
  | cons e es ih =>
    rw [depthOfAll]
    exact Nat.max_le.2 ⟨h e List.mem_cons_self, ih fun e' he' => h e' (List.mem_cons_of_mem _ he')⟩

end Expr

/-! ### Function names -/

/-- The functions of the catalogue are exported under words. -/
theorem isWord_exportName {f : Function} (h : f ∈ Function.catalogue) : IsWord f.exportName := by
  have hall : ∀ name ∈ Function.catalogue.map Function.exportName, IsWord name := by decide
  exact hall _ (List.mem_map_of_mem h)

theorem isWord_exportNameOf {name : String} (h : IsWord name) :
    IsWord (Function.exportNameOf name) := by
  unfold Function.exportNameOf
  split
  · rename_i f hf
    exact isWord_exportName (List.mem_of_find?_eq_some hf)
  · exact h

/-! ### Signs -/

/-- An operand of a sign that is no literal without sign does not start like a number. -/
theorem Built.not_startsNumber {reference : String → String} {t : Tier} {e : Expr}
    (h : Built (fun name => IsWord (reference name)) t e) (ht : Tier.unary.rank ≤ t.rank)
    (hsign : ∀ x, e = .number x → Number.isSigned x = true) :
    ∃ c cs, e.body reference = c :: cs ∧ c.isDigit = false ∧ c ≠ '.' := by
  induction h with
  | @number x hfin =>
    refine ⟨'-', (Number.Layout.shortest .up x.abs).plain, ?_, by decide, by decide⟩
    show Number.chars x = _
    rw [chars_of_isFinite hfin, Number.sign, if_pos (hsign x rfl)]
    rfl
  | identifier hword =>
    obtain ⟨c, cs, hcs, hc⟩ := hword.exists_cons
    exact ⟨c, cs, hcs, hc⟩
  | group _ _ => exact ⟨'(', _, rfl, by decide, by decide⟩
  | call hword _ _ =>
    obtain ⟨c, cs, hcs, hc⟩ := (isWord_exportNameOf hword).exists_cons
    exact ⟨c, _, by rw [Expr.body, hcs]; rfl, hc⟩
  | negate _ _ => exact ⟨'-', _, rfl, by decide, by decide⟩
  | binary hop _ _ _ _ =>
    rw [Tier.rank_of_mem_operators hop] at ht
    exact absurd (ht.trans (Tier.precedence_le _)) (by decide)
  | @lift t e _ ih =>
    have hnext : t.rank ≤ t.next.rank := by cases t <;> decide
    exact ih (ht.trans hnext) hsign

/-! ### The text of a tree -/

theorem segment_of_derives {l : Limits} {depth : Nat} {t : Tier} {ts : List Token} {e : Expr}
    (h : Derives l depth t ts e) : Segment ts := by
  induction h with
  | number x => exact .singleton rfl (by simp)
  | identifier name => exact .singleton rfl (by simp)
  | group _ ih => exact .group ih.balanced
  | call _ hargs => exact .token rfl (by simp) (.group (balanced_of_arguments hargs))
  | minus _ ih => exact .token rfl (by simp) ih
  | plus _ ih => exact .token rfl (by simp) ih
  | binary _ _ _ ihl ihr => exact ihl.append (.token rfl (by simp) ihr)
  | lift _ ih => exact ih

theorem exists_forall₂ {α β : Type} {R : α → β → Prop} {as : List α}
    (h : ∀ a ∈ as, ∃ b, R a b) : ∃ bs, List.Forall₂ R as bs := by
  induction as with
  | nil => exact ⟨[], .nil⟩
  | cons a as ih =>
    obtain ⟨b, hb⟩ := h a List.mem_cons_self
    obtain ⟨bs, hbs⟩ := ih fun a ha => h a (List.mem_cons_of_mem _ ha)
    exact ⟨b :: bs, .cons hb hbs⟩

theorem isFinite_of_built {named : String → Prop} {t : Tier} {x : Float}
    (h : Built named t (.number x)) : x.isFinite = true := by
  generalize he : Expr.number x = e at h
  induction h with
  | number hfin => cases he; exact hfin
  | lift _ ih => exact ih he
  | _ => cases he

variable {reference : String → String}

/-- The text of a tree is lexed as tokens that derive the exported tree, under all limits that have
room for them. -/
structure ReadsBack (reference : String → String) (t : Tier) (e : Expr) (ts : List Token) :
    Prop where
  spells : Spells (e.body reference) ts
  depth_le : e.depth ≤ ts.length
  derives : ∀ {l : Limits} {depth : Nat}, depth + e.depth ≤ l.maxDepth → ts.length ≤ l.maxTokens →
    Derives l depth t ts (e.exported reference)

namespace ReadsBack

theorem number {x : Float} (h : x.isFinite = true) :
    ReadsBack reference .primary (.number x) [.number x] where
  spells := spells_number h
  depth_le := Nat.zero_le _
  derives := fun _ _ => .number x

theorem identifier {name : String} (h : IsWord (reference name)) :
    ReadsBack reference .primary (.identifier name) [.identifier (reference name)] where
  spells := spells_word h
  depth_le := Nat.zero_le _
  derives := fun _ _ => .identifier _

theorem group {e : Expr} {ts : List Token} (h : ReadsBack reference .comparison e ts) :
    ReadsBack reference .primary (.group e) (.openParen :: (ts ++ [.closeParen])) where
  spells := h.spells.group
  depth_le := by
    have hle := h.depth_le
    simp only [Expr.depth, List.length_cons, List.length_append, List.length_nil]
    omega
  derives := by
    intro l depth hdepth htokens
    refine .group (h.derives hdepth ?_)
    simp only [List.length_cons, List.length_append, List.length_nil] at htokens
    omega

/-- A minus sign in front of a literal without sign is lexed as part of the literal. -/
theorem negate_number {x : Float} (h : x.isFinite = true) (hs : Number.isSigned x = false) :
    ReadsBack reference .unary (.negate (.number x)) [.number (-x)] where
  spells := by
    have hspells := spells_number (Number.isFinite_neg h)
    rwa [chars_neg h hs] at hspells
  depth_le := Nat.zero_le _
  derives := by
    intro l depth _ _
    rw [Expr.exported, hs]
    exact .lift (.number (-x))

theorem negate {e : Expr} {ts : List Token}
    (hbuilt : Built (fun name => IsWord (reference name)) .unary e)
    (hsign : ∀ x, e = .number x → Number.isSigned x = true)
    (h : ReadsBack reference .unary e ts) :
    ReadsBack reference .unary (.negate e) (.operator .sub :: ts) where
  spells := by
    obtain ⟨c, cs, hcs, hc, hdot⟩ := hbuilt.not_startsNumber le_rfl hsign
    show Spells ('-' :: e.body reference) _
    exact hcs ▸ (hcs ▸ h.spells).minus hc hdot
  depth_le := h.depth_le.trans (Nat.le_succ _)
  derives := by
    intro l depth hdepth htokens
    have hder := h.derives hdepth ((Nat.le_succ _).trans htokens)
    have hexported : (Expr.negate e).exported reference = .negate (e.exported reference) := by
      cases e with
      | number x => exact if_pos (hsign x rfl)
      | _ => rfl
    rw [hexported]
    exact .minus hder

theorem binary {t : Tier} {op : Operator} {left right : Expr} {ts us : List Token}
    (hop : op ∈ t.operators) (hl : ReadsBack reference t left ts)
    (hr : ReadsBack reference t.next right us) :
    ReadsBack reference t (.binary op left right) (ts ++ .operator op :: us) where
  spells := hl.spells.binary op hr.spells
  depth_le := by
    have hle := hl.depth_le
    have hle' := hr.depth_le
    simp only [Expr.depth, List.length_cons, List.length_append]
    omega
  derives := by
    intro l depth hdepth htokens
    simp only [Expr.depth] at hdepth
    simp only [List.length_cons, List.length_append] at htokens
    exact .binary hop (hl.derives (by omega) (by omega)) (hr.derives (by omega) (by omega))

theorem lift {t : Tier} {e : Expr} {ts : List Token} (h : ReadsBack reference t.next e ts) :
    ReadsBack reference t e ts where
  spells := h.spells
  depth_le := h.depth_le
  derives := fun hdepth htokens => .lift (h.derives hdepth htokens)

variable {args : List Expr} {tss : List (List Token)}

theorem length_le_intercalate {ts : List Token} (h : ts ∈ tss) :
    ts.length ≤ ([Token.comma].intercalate tss).length :=
  (isInfix_intercalate _ h).length_le

theorem depthOfAll_le_length (h : List.Forall₂ (ReadsBack reference .comparison) args tss) :
    Expr.depthOfAll args ≤ ([Token.comma].intercalate tss).length := by
  refine Expr.depthOfAll_le fun arg harg => ?_
  obtain ⟨ts, hts, hread⟩ := exists_of_forall₂ (List.Forall₂.flip h) harg
  exact hread.depth_le.trans (length_le_intercalate hts)

/-- Arguments that read back one by one are the arguments of the exported call. -/
theorem arguments (h : List.Forall₂ (ReadsBack reference .comparison) args tss) {l : Limits}
    {depth : Nat} (hdepth : depth + Expr.depthOfAll args ≤ l.maxDepth)
    (htokens : ([Token.comma].intercalate tss).length ≤ l.maxTokens) :
    Arguments l depth ([Token.comma].intercalate tss) (Expr.exportedAll reference args) := by
  have hder : ∀ {arg ts}, arg ∈ args → ts ∈ tss → ReadsBack reference .comparison arg ts →
      Derives l depth .comparison ts (arg.exported reference) := by
    intro arg ts harg hts hread
    have hle := Expr.depth_le_depthOfAll harg
    exact hread.derives (by omega) ((length_le_intercalate hts).trans htokens)
  have htrees : List.Forall₂ (ArgumentTree l depth) tss (Expr.exportedAll reference args) := by
    rw [Expr.exportedAll_eq_map, List.forall₂_map_right_iff]
    refine List.forall₂_iff_zip.2 ⟨h.length_eq.symm, fun {ts arg} hmem => ?_⟩
    obtain ⟨hts, harg⟩ := List.of_mem_zip hmem
    have hread : ReadsBack reference .comparison arg ts :=
      List.forall₂_zip (List.Forall₂.flip h) hmem
    refine .tree (parseTokens_of_derives ?_)
    rw [firstItems_eq_self ((length_le_intercalate hts).trans htokens)]
    exact hder harg hts hread
  -- what derives a tree has no comma outside parentheses, so the commas cut between arguments
  have hsegments : ∀ ts ∈ tss, Segment ts := by
    intro ts hts
    obtain ⟨arg, harg, hread⟩ := exists_of_forall₂ h hts
    exact segment_of_derives (hder harg hts hread)
  cases h with
  | nil => exact .none
  | @cons arg ts args tss hread hrest =>
    refine .some (List.cons_ne_nil _ _) hsegments (fun hnil => ?_) htrees
    have hle : ts.length ≤ ([Token.comma].intercalate (ts :: tss)).length :=
      length_le_intercalate List.mem_cons_self
    rw [hnil] at hle
    exact hread.spells.ne_nil (List.length_eq_zero_iff.1 (Nat.le_zero.1 hle))

theorem call {name : String} (hname : IsWord name)
    (h : List.Forall₂ (ReadsBack reference .comparison) args tss) :
    ReadsBack reference .primary (.call name args)
      (.identifier (Function.exportNameOf name) :: .openParen ::
        ([Token.comma].intercalate tss ++ [.closeParen])) where
  spells := by
    have hall : List.Forall₂ Spells (args.map (Expr.body reference)) tss :=
      List.forall₂_map_left_iff.2 (h.imp fun _ _ hread => hread.spells)
    have hcall := Spells.call (isWord_exportNameOf hname) (spellsInner_intercalate hall)
    rwa [← Expr.argsBody_eq_intercalate, ← List.cons_append, ← List.append_assoc] at hcall
  depth_le := by
    have hle := depthOfAll_le_length h
    simp only [Expr.depth, List.length_cons, List.length_append, List.length_nil]
    omega
  derives := by
    intro l depth hdepth htokens
    simp only [Expr.depth] at hdepth
    simp only [List.length_cons, List.length_append, List.length_nil] at htokens
    exact .call (by omega) (arguments h (by omega) (by omega))

end ReadsBack

/-- **Every tree that the parser builds reads back.** -/
theorem exists_readsBack {t : Tier} {e : Expr}
    (h : Built (fun name => IsWord (reference name)) t e) : ∃ ts, ReadsBack reference t e ts := by
  induction h with
  | number hfin => exact ⟨_, .number hfin⟩
  | identifier hword => exact ⟨_, .identifier hword⟩
  | group _ ih =>
    obtain ⟨ts, hread⟩ := ih
    exact ⟨_, hread.group⟩
  | call hword _ ih =>
    obtain ⟨tss, htss⟩ := exists_forall₂ ih
    exact ⟨_, .call hword htss⟩
  | @negate e hbuilt ih =>
    obtain ⟨ts, hread⟩ := ih
    -- a minus sign in front of a literal without sign is lexed as part of the literal
    by_cases hliteral : ∃ x, e = .number x ∧ Number.isSigned x = false
    · obtain ⟨x, rfl, hs⟩ := hliteral
      exact ⟨_, .negate_number (isFinite_of_built hbuilt) hs⟩
    · refine ⟨_, .negate hbuilt (fun x hx => ?_) hread⟩
      cases hs : Number.isSigned x with
      | true => rfl
      | false => exact absurd ⟨x, hx, hs⟩ hliteral
  | binary hop _ _ ihl ihr =>
    obtain ⟨ts, hl⟩ := ihl
    obtain ⟨us, hr⟩ := ihr
    exact ⟨_, .binary hop hl hr⟩
  | lift _ ih =>
    obtain ⟨ts, hread⟩ := ih
    exact ⟨ts, hread.lift⟩

/-! ### The text of a formula -/

/-- All limits are larger than a length. -/
structure Limits.Exceed (l : Limits) (n : Nat) : Prop where
  length : n < l.maxLength
  tokens : n < l.maxTokens
  depth : n < l.maxDepth

/-- The text of a tree, read as a formula, gives the exported tree. -/
theorem parseChars_body {l : Limits} {e : Expr}
    (h : Built (fun name => IsWord (reference name)) .comparison e)
    (hl : l.Exceed (e.body reference).length) :
    parseChars l ('=' :: e.body reference) = .ok (e.exported reference) := by
  obtain ⟨ts, hread⟩ := exists_readsBack h
  have hle := hread.spells.length_le
  have hdepth := hread.depth_le
  have hlength := hl.length
  have hmaxTokens := hl.tokens
  have hmaxDepth := hl.depth
  have htokenize : tokenize l.maxLength (e.body reference) = ts := by
    have htokens := hread.spells.tokens (l.maxLength - ts.length) [] ends_nil
    have hnil : ∀ cap, tokensOf cap false [] = [] := by
      intro cap
      cases cap <;> rfl
    rwa [Nat.add_sub_of_le (by omega), List.append_nil, hnil, List.append_nil] at htokens
  have hder : Derives l 0 .comparison ts (e.exported reference) :=
    hread.derives (by omega) (by omega)
  rw [parseChars, if_neg (by omega), htokenize]
  cases ts with
  | nil => exact absurd rfl hread.spells.ne_nil
  | cons t ts =>
    refine parseTokens_of_derives ?_
    rwa [firstItems_eq_self (by omega)]

theorem body_of_parse {l : Limits} {formula : String} {e : Expr} (h : parse l formula = .ok e) :
    body l reference formula = String.ofList (e.body reference) := by
  rw [parse] at h
  rw [body, bodyChars, h]

theorem parse_ofList (l : Limits) (cs : List Char) :
    parse l ("=" ++ String.ofList cs) = parseChars l ('=' :: cs) := by
  rw [parse, String.toList_append, String.toList_ofList, String.toList_ofList,
    List.singleton_append]

/-- **Reading undoes exporting.** The body of a formula without arguments left as tokens and with
finite literals only, read as a formula under limits larger than its length, gives the tree of the
formula with its names replaced, wherever the references are single words. -/
theorem parse_body {l l' : Limits} {p : Placement} {formula : String} {e : Expr}
    (h : parse l formula = .ok e) (hplain : e.isPlain = true)
    (hwords : ∀ name ∈ e.identifiers, IsWord (p.reference name))
    (hl : l'.Exceed (body l p.reference formula).length) :
    parse l' ("=" ++ body l p.reference formula) = .ok (e.exported p.reference) := by
  rw [body_of_parse h] at hl ⊢
  rw [String.length_ofList] at hl
  rw [parse_ofList]
  refine parseChars_body (built_of_parse h hplain fun name hname => ?_) hl
  exact hwords name (List.mem_eraseDups.2 hname)

/-- A formula with signs in front of a name and in front of a literal, written on row 5. -/
theorem parse_body_signs :
    let p : Placement := ⟨.ofColumns [⟨"a", .data, none⟩, ⟨"b", .data, none⟩], 5, .empty⟩
    let e : Expr := .binary .mul (.negate (.identifier "a"))
      (.group (.binary .sub (.number (Number.ofDigits ['2'] []))
        (.call "summe" [.identifier "b", .negate (.number (Number.ofDigits ['3'] []))])))
    parse {} "=-a * (2 - summe(b; - 3))" = .ok e ∧
      body {} p.reference "=-a * (2 - summe(b; - 3))" = "-A5*(2-SUM(B5,-3))" ∧
      parse {} ("=" ++ body {} p.reference "=-a * (2 - summe(b; - 3))") =
        .ok (e.exported p.reference) := by
  intro p e
  have hparse : parse {} "=-a * (2 - summe(b; - 3))" = .ok e := rfl
  refine ⟨hparse, ?_, parse_body hparse ?_ ?_ ⟨?_, ?_, ?_⟩⟩
  all_goals decide +kernel

end SheetTemplate.Formula
