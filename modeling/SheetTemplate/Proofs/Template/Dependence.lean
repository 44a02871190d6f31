import SheetTemplate.Proofs.Formula.Renaming
import SheetTemplate.Proofs.Template.Issues
import SheetTemplate.Proofs.Template.Scope

/-!
# What a value depends on

The value of a computed column is settled by the names in its formula and, through the computed
columns in front of it, by the names in their formulas (`DependsOn`). Two runs that agree on what
these names stand for give it the same value, whatever else they read, and so do two templates that
differ in columns of other names only (`value_eq_of_agree`).

The two lists of columns are compared by `Edited`, from the front to the back: what the names stand
for stays the same behind every column that both lists have, and behind every column that only one
of them has (`Edited.reading_eq`).
-/

namespace SheetTemplate

/-- What a column comes to depends on what the names in its formula stand for. -/
theorem Column.result_congr {l : Formula.Limits} {value value' : String → Float} {c : Column}
    (h : ∀ e, c.tree? l = some e → ∀ name ∈ e.identifiers, value name = value' name) :
    c.result l value = c.result l value' := by
  unfold Column.tree? at h
  unfold Column.result
  cases hformula : c.formula with
  | none => rfl
  | some formula =>
    cases hparse : Formula.parse l formula with
    | error _ => simp [hparse]
    | ok e =>
      simp only [hformula, hparse, Option.some.injEq, forall_eq'] at h
      have heval : e.eval value = e.eval value' :=
        e.eval_congr fun name hname => h name (List.mem_eraseDups.2 hname)
      simp only [hparse, heval]

namespace Template

/-- The names that the value of a column behind some other ones depends on: those in its formula,
and those in the formula of every computed column among the other ones whose id is such a name. -/
inductive DependsOn (l : Formula.Limits) (before : List Column) (k : Column) : String → Prop
  | own {e : Formula.Expr} {name : String} : k.tree? l = some e → name ∈ e.identifiers →
      DependsOn l before k name
  | through {c : Column} {e : Formula.Expr} {name : String} : DependsOn l before k c.id →
      c ∈ before → c.isComputed = true → c.tree? l = some e → name ∈ e.identifiers →
      DependsOn l before k name

/-- Two lists of columns differ in columns only whose ids have not the property: such columns are
removed, added, or put in the place of others. -/
inductive Edited (named : String → Prop) : List Column → List Column → Prop
  | nil : Edited named [] []
  | keep (c : Column) {cs cs' : List Column} : Edited named cs cs' →
      Edited named (c :: cs) (c :: cs')
  | remove {c : Column} {cs cs' : List Column} : ¬ named c.id → Edited named cs cs' →
      Edited named (c :: cs) cs'
  | add {c : Column} {cs cs' : List Column} : ¬ named c.id → Edited named cs cs' →
      Edited named cs (c :: cs')

variable {t t' : Template} {row row' : Row} {named : String → Prop} {cs cs' : List Column}

/-- Behind a column, other names stand for what they stood for. -/
theorem reading_cons_of_ne {c : Column} {name : String} (h : c.id ≠ name)
    (earlier : List Column) : t.reading row (c :: earlier) name = t.reading row earlier name := by
  rw [reading_cons, if_neg h]

namespace Edited

theorem append {ds ds' : List Column} (h : Edited named cs cs') (h' : Edited named ds ds') :
    Edited named (cs ++ ds) (cs' ++ ds') := by
  induction h with
  | nil => exact h'
  | keep c _ ih => exact .keep c ih
  | remove hc _ ih => exact .remove hc ih
  | add hc _ ih => exact .add hc ih

/-- The columns whose ids have the property are the same ones. -/
theorem mem_iff (h : Edited named cs cs') {c : Column} (hc : named c.id) : c ∈ cs ↔ c ∈ cs' := by
  induction h with
  | nil => rfl
  | keep c' _ ih => rw [List.mem_cons, List.mem_cons, ih]
  | remove hc' _ ih =>
    rw [List.mem_cons, ← ih, or_iff_right]
    rintro rfl
    exact hc' hc
  | add hc' _ ih =>
    rw [List.mem_cons, ih, or_iff_right]
    rintro rfl
    exact hc' hc

theorem ne_of_named {c : Column} {name : String} (hnot : ¬ named c.id) (hname : named name) :
    c.id ≠ name := by
  rintro rfl
  exact hnot hname

/-- **Names keep what they stand for** behind two lists of columns that differ in other names only,
if the formulas of the columns with these names use no others. -/
theorem reading_eq (h : Edited named cs cs') (hoptions : t'.options = t.options)
    (hclosed : ∀ c ∈ cs, c.isComputed = true → named c.id → ∀ e,
      c.tree? t.options.limits = some e → ∀ name ∈ e.identifiers, named name)
    {earlier earlier' : List Column}
    (hearlier : ∀ name, named name → t.reading row earlier name = t'.reading row' earlier' name) :
    ∀ name, named name →
      t.reading row ((cs.filter Column.isComputed).reverse ++ earlier) name =
        t'.reading row' ((cs'.filter Column.isComputed).reverse ++ earlier') name := by
  -- front to back: the columns that were passed stand in `earlier` and `earlier'`
  induction h generalizing earlier earlier' with
  | nil => exact hearlier
  | @keep c cs cs' _ ih =>
    have hclosed' := fun c' hc' => hclosed c' (List.mem_cons_of_mem _ hc')
    by_cases hc : c.isComputed = true
    · rw [List.filter_cons_of_pos hc, List.filter_cons_of_pos hc, List.reverse_cons,
        List.reverse_cons, List.append_assoc, List.append_assoc]
      refine ih hclosed' fun name hname => ?_
      rw [List.singleton_append, List.singleton_append, reading_cons, reading_cons]
      split_ifs with hid
      · have hnames := hclosed c List.mem_cons_self hc (hid ▸ hname)
        rw [resultAfter, resultAfter, hoptions]
        exact congrArg _ (Column.result_congr fun e htree name' hname' =>
          hearlier name' (hnames e htree name' hname'))
      · exact hearlier name hname
    · rw [List.filter_cons_of_neg hc, List.filter_cons_of_neg hc]
      exact ih hclosed' hearlier
  | @remove c cs cs' hnot _ ih =>
    have hclosed' := fun c' hc' => hclosed c' (List.mem_cons_of_mem _ hc')
    by_cases hc : c.isComputed = true
    · rw [List.filter_cons_of_pos hc, List.reverse_cons, List.append_assoc]
      refine ih hclosed' fun name hname => ?_
      rw [List.singleton_append, reading_cons_of_ne (ne_of_named hnot hname)]
      exact hearlier name hname
    · rw [List.filter_cons_of_neg hc]
      exact ih hclosed' hearlier
  | @add c cs cs' hnot _ ih =>
    by_cases hc : c.isComputed = true
    · rw [List.filter_cons_of_pos hc, List.reverse_cons, List.append_assoc]
      refine ih hclosed fun name hname => ?_
      rw [List.singleton_append, reading_cons_of_ne (ne_of_named hnot hname)]
      exact hearlier name hname
    · rw [List.filter_cons_of_neg hc]
      exact ih hclosed hearlier

end Edited

/-- The rows and the system variables of two runs agree on some names. -/
structure AgreeOn (named : String → Prop) (t t' : Template) (row row' : Row) : Prop where
  data : ∀ c ∈ t.columns, c.isData = true → named c.id →
    t.options.fieldMap.resolve c.id row = t.options.fieldMap.resolve c.id row'
  system : ∀ name, named name → t.systemVariables.get? name = t'.systemVariables.get? name

/-- In front of all computed columns, names stand for the same in two runs that agree on them. -/
theorem AgreeOn.given_eq (h : AgreeOn named t t' row row') (hoptions : t'.options = t.options)
    (hcolumns : Edited named t.columns t'.columns) {name : String} (hname : named name) :
    t.given row name = t'.given row' name := by
  have hdata : (∃ c ∈ t.columns, c.isData = true ∧ c.id = name) ↔
      ∃ c ∈ t'.columns, c.isData = true ∧ c.id = name := by
    refine exists_congr fun c => and_congr_left ?_
    rintro ⟨-, rfl⟩
    exact hcolumns.mem_iff hname
  unfold given
  by_cases hd : ∃ c ∈ t.columns, c.isData = true ∧ c.id = name
  · rw [if_pos hd, if_pos (hdata.1 hd), hoptions]
    obtain ⟨c, hc, hkind, rfl⟩ := hd
    exact h.data c hc hkind hname
  · rw [if_neg hd, if_neg (mt hdata.2 hd), h.system name hname]

/-- A computed column without a later one of its id has the value that it comes to in front. -/
theorem mem_values_iff_of_split {before after : List Column} {k : Column}
    (hsplit : t.columns = before ++ k :: after) (hk : k.isComputed = true)
    (hlast : ∀ c ∈ after, c.id ≠ k.id) (x : Float) : (k.id, x) ∈ t.values row ↔
      x = Reason.orZero (t.resultAfter row (before.filter Column.isComputed).reverse k) := by
  have hcomputed : t.computed =
      before.filter Column.isComputed ++ k :: after.filter Column.isComputed := by
    rw [computed, hsplit, List.filter_append, List.filter_cons_of_pos hk]
  have hread : t.reading row t.computed.reverse k.id = _ :=
    hcomputed ▸ reading_of_split fun c hc => hlast c (List.mem_filter.1 hc).1
  rw [values_eq, List.mem_map]
  constructor
  · rintro ⟨id, -, heq⟩
    obtain ⟨rfl, rfl⟩ := Prod.mk.inj heq
    exact hread
  · rintro rfl
    refine ⟨k.id, List.mem_eraseDups.2 (List.mem_map.2 ⟨k, ?_, rfl⟩), by rw [hread]⟩
    simp [hcomputed]

/-- **A value depends on what its formula names**, directly or through computed columns in front of
it. Where two runs agree on these names, and the columns of the one are those of the other up to
columns with other ids, the value of the column is the same one. -/
theorem value_eq_of_agree {before before' after after' : List Column} {k : Column}
    (hsplit : t.columns = before ++ k :: after) (hsplit' : t'.columns = before' ++ k :: after')
    (hoptions : t'.options = t.options) (hk : k.isComputed = true)
    (hids : (t.columns.map Column.id).Nodup) (hids' : (t'.columns.map Column.id).Nodup)
    (hbefore : Edited (DependsOn t.options.limits before k) before before')
    (hafter : Edited (DependsOn t.options.limits before k) after after')
    (hagree : AgreeOn (DependsOn t.options.limits before k) t t' row row') :
    ∃ x, ∀ y, ((k.id, y) ∈ t.values row ↔ y = x) ∧ ((k.id, y) ∈ t'.values row' ↔ y = x) := by
  have hlast : ∀ {before after : List Column}, ((before ++ k :: after).map Column.id).Nodup →
      ∀ c ∈ after, c.id ≠ k.id := by
    intro before after hnodup c hc hid
    rw [List.map_append, List.map_cons] at hnodup
    refine (List.nodup_cons.1 (List.nodup_append.1 hnodup).2.1).1 ?_
    exact hid ▸ List.mem_map_of_mem hc
  have hcolumns : Edited (DependsOn t.options.limits before k) t.columns t'.columns := by
    rw [hsplit, hsplit']
    exact hbefore.append (.keep k hafter)
  have hgiven : ∀ name, DependsOn t.options.limits before k name →
      t.reading row [] name = t'.reading row' [] name :=
    fun name hname => hagree.given_eq hoptions hcolumns hname
  have hreading := hbefore.reading_eq hoptions
    (fun c hc hcomputed hid e htree name hname => .through hid hc hcomputed htree hname) hgiven
  have hresult : t.resultAfter row (before.filter Column.isComputed).reverse k =
      t'.resultAfter row' (before'.filter Column.isComputed).reverse k := by
    rw [resultAfter, resultAfter, hoptions]
    refine Column.result_congr fun e htree name hname => ?_
    simpa using hreading name (.own htree hname)
  refine ⟨_, fun y => ⟨mem_values_iff_of_split hsplit hk (hlast (hsplit ▸ hids)) y, ?_⟩⟩
  rw [hresult]
  exact mem_values_iff_of_split hsplit' hk (hlast (hsplit' ▸ hids')) y

/-- A total that names `bedrag` and the system variable `korting`, and through `bedrag` also `km`
and `tarief`. In the other template `toeslag` has another formula, and `fooi` is new; the other row
differs in `pauze`, and the other system variables in `dag`. -/
theorem value_eq_of_agree_total :
    let km : Column := ⟨"km", .data, none⟩
    let pauze : Column := ⟨"pauze", .data, none⟩
    let bedrag : Column := ⟨"bedrag", .computed, some "=km*tarief"⟩
    let toeslag : Column := ⟨"toeslag", .computed, some "=pauze+bedrag"⟩
    let toeslag' : Column := ⟨"toeslag", .computed, some "=dag"⟩
    let totaal : Column := ⟨"totaal", .computed, some "=bedrag-korting"⟩
    let fooi : Column := ⟨"fooi", .computed, some "=totaal/2"⟩
    let t : Template := {
      columns := [km, pauze, bedrag, toeslag, totaal]
      systemVariables := .ofList [("tarief", 0.5), ("korting", 3), ("dag", 1)] }
    let t' : Template := { t with
      columns := [km, pauze, bedrag, toeslag', totaal, fooi]
      systemVariables := .ofList [("tarief", 0.5), ("korting", 3), ("dag", 2)] }
    let row := (Row.empty.insert "km" (.number 100)).insert "break" (.number 1)
    let row' := (Row.empty.insert "km" (.number 100)).insert "break" (.number 2)
    t.values row = [("bedrag", 50), ("toeslag", 51), ("totaal", 47)] ∧
    t'.values row' = [("bedrag", 50), ("toeslag", 2), ("totaal", 47), ("fooi", 23.5)] ∧
    ∃ x, ∀ y,
      (("totaal", y) ∈ t.values row ↔ y = x) ∧ (("totaal", y) ∈ t'.values row' ↔ y = x) := by
  intro km pauze bedrag toeslag toeslag' totaal fooi t t' row row'
  have hbedrag : bedrag.tree? {} = some (.binary .mul (.identifier "km") (.identifier "tarief")) :=
    rfl
  have htotaal : totaal.tree? {} =
      some (.binary .sub (.identifier "bedrag") (.identifier "korting")) := rfl
  have hnames : ∀ name, DependsOn {} [km, pauze, bedrag, toeslag] totaal name →
      name ∈ ["bedrag", "korting", "km", "tarief"] := by
    intro name h
    induction h with
    | own htree hname =>
      obtain rfl := Option.some.inj (htotaal.symm.trans htree)
      revert hname
      decide +revert
    | @through c e name _ hc hcomputed htree hname ih =>
      rcases List.mem_cons.1 hc with rfl | hc
      · cases hcomputed
      rcases List.mem_cons.1 hc with rfl | hc
      · cases hcomputed
      rcases List.mem_pair.1 hc with rfl | rfl
      · obtain rfl := Option.some.inj (hbedrag.symm.trans htree)
        revert hname
        decide +revert
      · exact absurd ih (by decide)
  have hnot : ∀ name, name ∉ ["bedrag", "korting", "km", "tarief"] →
      ¬ DependsOn {} [km, pauze, bedrag, toeslag] totaal name := fun name => mt (hnames name)
  have hsplit : t.columns = [km, pauze, bedrag, toeslag] ++ totaal :: [] := rfl
  have hsplit' : t'.columns = [km, pauze, bedrag, toeslag'] ++ totaal :: [fooi] := rfl
  refine ⟨by decide +kernel, by decide +kernel, value_eq_of_agree hsplit hsplit' rfl rfl (by decide)
    (by decide) ?_ ?_ ⟨fun c hc hdata hid => ?_, fun name hname => ?_⟩⟩
  · refine .keep _ (.keep _ (.keep _ (.remove (hnot _ (by decide)) ?_)))
    exact .add (hnot _ (by decide)) .nil
  · exact .add (hnot _ (by decide)) .nil
  · have hall : ∀ c ∈ t.columns, c.isData = true → c.id ∈ ["bedrag", "korting", "km", "tarief"] →
        t.options.fieldMap.resolve c.id row = t.options.fieldMap.resolve c.id row' := by
      decide +kernel
    exact hall c hc hdata (hnames _ hid)
  · have hall : ∀ name ∈ ["bedrag", "korting", "km", "tarief"],
        t.systemVariables.get? name = t'.systemVariables.get? name := by decide +kernel
    exact hall name (hnames _ hname)

end Template
end SheetTemplate
