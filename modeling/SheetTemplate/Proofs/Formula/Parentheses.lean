import SheetTemplate.Formula.Level
import Mathlib.Data.List.Basic

/-!
# Parentheses and the commas between arguments

`Balanced` holds of tokens in which every parenthesis has its partner, and `Segment` of those among
them that have no comma outside all parentheses.

* `closing_eq_some_iff`: the scan for a closing parenthesis cuts at the one that leaves balanced
  tokens in front of it.
* `splitAtCommas_intercalate` and `segments_splitAtCommas`: balanced tokens are cut into the one
  list of segments from which commas rebuild them.
-/

namespace SheetTemplate.Formula

/-- Whether a token is a parenthesis. -/
def Token.isParen : Token → Bool
  | .openParen | .closeParen => true
  | _ => false

/-- A token opens, it closes, or it is no parenthesis. -/
@[elab_as_elim]
theorem Token.paren_cases {motive : Token → Prop} (openParen : motive .openParen)
    (closeParen : motive .closeParen) (other : ∀ t, t.isParen = false → motive t) (t : Token) :
    motive t := by
  cases t with
  | openParen => exact openParen
  | closeParen => exact closeParen
  | _ => exact other _ rfl

/-- Every parenthesis has its partner. -/
inductive Balanced : List Token → Prop
  | nil : Balanced []
  | token {t : Token} {ts : List Token} : t.isParen = false → Balanced ts → Balanced (t :: ts)
  | paren {inner ts : List Token} : Balanced inner → Balanced ts →
      Balanced (.openParen :: (inner ++ .closeParen :: ts))

/-- Every parenthesis has its partner, and every comma stands between two partners. -/
inductive Segment : List Token → Prop
  | nil : Segment []
  | token {t : Token} {ts : List Token} : t.isParen = false → t ≠ .comma → Segment ts →
      Segment (t :: ts)
  | paren {inner ts : List Token} : Balanced inner → Segment ts →
      Segment (.openParen :: (inner ++ .closeParen :: ts))

namespace Balanced

theorem append {ts us : List Token} (h : Balanced ts) (h' : Balanced us) :
    Balanced (ts ++ us) := by
  induction h with
  | nil => exact h'
  | token ht _ ih => exact .token ht ih
  | paren hinner _ _ ih =>
    rw [List.cons_append, List.append_assoc, List.cons_append]
    exact .paren hinner ih

theorem singleton {t : Token} (h : t.isParen = false) : Balanced [t] := .token h .nil

theorem group {inner : List Token} (h : Balanced inner) :
    Balanced (.openParen :: (inner ++ [.closeParen])) := .paren h .nil

end Balanced

namespace Segment

theorem append {ts us : List Token} (h : Segment ts) (h' : Segment us) : Segment (ts ++ us) := by
  induction h with
  | nil => exact h'
  | token ht hcomma _ ih => exact .token ht hcomma ih
  | paren hinner _ ih =>
    rw [List.cons_append, List.append_assoc, List.cons_append]
    exact .paren hinner ih

theorem balanced {ts : List Token} (h : Segment ts) : Balanced ts := by
  induction h with
  | nil => exact .nil
  | token ht _ _ ih => exact .token ht ih
  | paren hinner _ ih => exact .paren hinner ih

theorem singleton {t : Token} (h : t.isParen = false) (hcomma : t ≠ .comma) : Segment [t] :=
  .token h hcomma .nil

theorem group {inner : List Token} (h : Balanced inner) :
    Segment (.openParen :: (inner ++ [.closeParen])) := .paren h .nil

end Segment

/-- Commas between segments leave them balanced. -/
theorem balanced_intercalate {segs : List (List Token)} (h : ∀ s ∈ segs, Segment s) :
    Balanced ([Token.comma].intercalate segs) := by
  induction segs with
  | nil => exact .nil
  | cons s segs ih =>
    have hs := (h s List.mem_cons_self).balanced
    cases segs with
    | nil => simpa using hs
    | cons s' segs =>
      rw [List.intercalate_cons_cons]
      exact (hs.append (.singleton rfl)).append (ih fun s hs => h s (List.mem_cons_of_mem _ hs))

/-! ### The closing parenthesis -/

/-- The tokens up to a closing parenthesis and those after it, with some tokens in front. -/
def putInFront (front : List Token) (p : List Token × List Token) : List Token × List Token :=
  (front ++ p.1, p.2)

theorem closing_open (d : Nat) (ts : List Token) :
    closing d (.openParen :: ts) = (closing (d + 1) ts).map (putInFront [.openParen]) := by
  cases d <;> rfl

theorem closing_close_zero (ts : List Token) : closing 0 (.closeParen :: ts) = some ([], ts) := rfl

theorem closing_close_succ (d : Nat) (ts : List Token) :
    closing (d + 1) (.closeParen :: ts) = (closing d ts).map (putInFront [.closeParen]) := rfl

theorem closing_token {t : Token} (ht : t.isParen = false) (d : Nat) (ts : List Token) :
    closing d (t :: ts) = (closing d ts).map (putInFront [t]) := by
  cases t <;> cases ht <;> cases d <;> rfl

theorem map_putInFront (front front' : List Token) (o : Option (List Token × List Token)) :
    (o.map (putInFront front')).map (putInFront front) = o.map (putInFront (front ++ front')) := by
  rw [Option.map_map]
  congr 1
  funext p
  simp [putInFront]

/-- The scan passes over balanced tokens. -/
theorem closing_balanced_append {ts : List Token} (h : Balanced ts) (d : Nat)
    (rest : List Token) : closing d (ts ++ rest) = (closing d rest).map (putInFront ts) := by
  induction h generalizing d rest with
  | nil => rw [List.nil_append, show putInFront [] = id from rfl, Option.map_id, id]
  | token ht _ ih => rw [List.cons_append, closing_token ht, ih, map_putInFront]; rfl
  | @paren inner ts _ _ ih₁ ih₂ =>
    rw [List.cons_append, List.append_assoc, List.cons_append, closing_open, ih₁,
      closing_close_succ, ih₂, map_putInFront, map_putInFront, map_putInFront]
    simp

theorem closing_zero_of_balanced {inner : List Token} (h : Balanced inner) (rest : List Token) :
    closing 0 (inner ++ .closeParen :: rest) = some (inner, rest) := by
  rw [closing_balanced_append h, closing_close_zero]
  simp [putInFront]

/-- With more parentheses open, the scan first closes the innermost ones. -/
theorem closing_add (d k : Nat) (ts : List Token) :
    closing (d + k + 1) ts = (closing k ts).bind fun p =>
      (closing d p.2).map (putInFront (p.1 ++ [.closeParen])) := by
  have hfront : ∀ (t : Token) (o : Option (List Token × List Token)),
      (o.map (putInFront [t])).bind (fun p =>
        (closing d p.2).map (putInFront (p.1 ++ [.closeParen]))) =
      (o.bind fun p => (closing d p.2).map (putInFront (p.1 ++ [.closeParen]))).map
        (putInFront [t]) := by
    intro t o
    cases o with
    | none => rfl
    | some p => simp only [Option.map_some, Option.bind_some, map_putInFront]; rfl
  -- token by token; only a closing parenthesis at depth `k = 0` ends the inner scan
  induction ts generalizing k with
  | nil => cases k <;> rfl
  | cons t ts ih =>
    cases t using Token.paren_cases with
    | openParen => rw [closing_open, closing_open, Nat.add_assoc d, ih, hfront]
    | closeParen =>
      cases k with
      | zero => rw [closing_close_zero, closing_close_succ]; rfl
      | succ k => rw [closing_close_succ, closing_close_succ, hfront, ← Nat.add_assoc, ih]
    | other t ht => rw [closing_token ht, ih, closing_token ht, hfront]

theorem balanced_of_closing {ts inner rest : List Token} (h : closing 0 ts = some (inner, rest)) :
    ts = inner ++ .closeParen :: rest ∧ Balanced inner := by
  -- on the length, as the tokens behind an inner group are not the tail of `ts`
  induction hn : ts.length using Nat.strongRecOn generalizing ts inner rest with
  | _ n ih =>
    subst hn
    cases ts with
    | nil => cases h
    | cons t ts =>
      cases t using Token.paren_cases with
      | openParen =>
        rw [closing_open, closing_add 0 0] at h
        obtain ⟨⟨a, r⟩, ha, he⟩ := Option.map_eq_some_iff.1 h
        cases he
        obtain ⟨⟨b, s⟩, hb, hbind⟩ := Option.bind_eq_some_iff.1 ha
        obtain ⟨⟨c, u⟩, hc, he⟩ := Option.map_eq_some_iff.1 hbind
        cases he
        obtain ⟨rfl, hbalb⟩ := ih _ (by simp) hb rfl
        obtain ⟨rfl, hbalc⟩ := ih _ (by simp; omega) hc rfl
        refine ⟨by simp, ?_⟩
        simpa [putInFront] using Balanced.paren hbalb hbalc
      | closeParen =>
        rw [closing_close_zero] at h
        cases h
        exact ⟨rfl, .nil⟩
      | other t ht =>
        rw [closing_token ht] at h
        obtain ⟨⟨a, r⟩, ha, he⟩ := Option.map_eq_some_iff.1 h
        cases he
        obtain ⟨rfl, hbal⟩ := ih _ (by simp) ha rfl
        exact ⟨rfl, .token ht hbal⟩

/-- **The parenthesis that closes** is the one with balanced tokens in front of it. -/
theorem closing_eq_some_iff {ts inner rest : List Token} :
    closing 0 ts = some (inner, rest) ↔ ts = inner ++ .closeParen :: rest ∧ Balanced inner := by
  constructor
  · exact balanced_of_closing
  · rintro ⟨rfl, h⟩
    exact closing_zero_of_balanced h rest

/-- More tokens at the end do not move the closing parenthesis. -/
theorem closing_append {ts inner rest : List Token} (h : closing 0 ts = some (inner, rest))
    (more : List Token) : closing 0 (ts ++ more) = some (inner, rest ++ more) := by
  obtain ⟨rfl, hinner⟩ := balanced_of_closing h
  rw [List.append_assoc, List.cons_append]
  exact closing_zero_of_balanced hinner _

/-! ### Arguments -/

/-- Put tokens in front of the first of some arguments. -/
def prependAll (front : List Token) : List (List Token) → List (List Token)
  | [] => [front]
  | s :: segs => (front ++ s) :: segs

theorem prepend_prependAll (t : Token) (front : List Token) (segs : List (List Token)) :
    prepend t (prependAll front segs) = prependAll (t :: front) segs := by
  cases segs <;> rfl

theorem splitAtCommas_ne_nil (d : Nat) (ts : List Token) : splitAtCommas d ts ≠ [] := by
  have hprepend : ∀ (t : Token) (segs : List (List Token)), prepend t segs ≠ [] := by
    intro t segs
    cases segs <;> exact List.cons_ne_nil _ _
  cases ts with
  | nil => simp [splitAtCommas]
  | cons t ts => cases t <;> cases d <;> simp [splitAtCommas, hprepend]

theorem splitAtCommas_open (d : Nat) (ts : List Token) :
    splitAtCommas d (.openParen :: ts) = prepend .openParen (splitAtCommas (d + 1) ts) := by
  cases d <;> rfl

theorem splitAtCommas_close (d : Nat) (ts : List Token) :
    splitAtCommas (d + 1) (.closeParen :: ts) = prepend .closeParen (splitAtCommas d ts) := rfl

theorem splitAtCommas_comma (ts : List Token) :
    splitAtCommas 0 (.comma :: ts) = [] :: splitAtCommas 0 ts := rfl

theorem splitAtCommas_token {t : Token} (ht : t.isParen = false) {d : Nat}
    (hd : 0 < d ∨ t ≠ .comma) (ts : List Token) :
    splitAtCommas d (t :: ts) = prepend t (splitAtCommas d ts) := by
  cases t <;> cases ht <;> cases d <;> simp_all [splitAtCommas]

theorem prependAll_nil {segs : List (List Token)} (h : segs ≠ []) : prependAll [] segs = segs := by
  cases segs with
  | nil => exact absurd rfl h
  | cons s segs => rfl

/-- Inside parentheses, commas cut nothing. -/
theorem splitAtCommas_balanced_append {ts : List Token} (h : Balanced ts) (d : Nat)
    (rest : List Token) :
    splitAtCommas (d + 1) (ts ++ rest) = prependAll ts (splitAtCommas (d + 1) rest) := by
  induction h generalizing d rest with
  | nil => rw [List.nil_append, prependAll_nil (splitAtCommas_ne_nil _ _)]
  | token ht _ ih =>
    rw [List.cons_append, splitAtCommas_token ht (.inl d.succ_pos), ih, prepend_prependAll]
  | @paren inner ts _ _ ih₁ ih₂ =>
    rw [List.cons_append, List.append_assoc, List.cons_append, splitAtCommas_open, ih₁,
      splitAtCommas_close, ih₂, prepend_prependAll, prepend_prependAll]
    cases splitAtCommas (d + 1) rest <;> simp [prependAll]

theorem splitAtCommas_segment_append {ts : List Token} (h : Segment ts) (rest : List Token) :
    splitAtCommas 0 (ts ++ rest) = prependAll ts (splitAtCommas 0 rest) := by
  induction h generalizing rest with
  | nil => rw [List.nil_append, prependAll_nil (splitAtCommas_ne_nil _ _)]
  | token ht hcomma _ ih =>
    rw [List.cons_append, splitAtCommas_token ht (.inr hcomma), ih, prepend_prependAll]
  | @paren inner ts hinner _ ih =>
    rw [List.cons_append, List.append_assoc, List.cons_append, splitAtCommas_open,
      splitAtCommas_balanced_append hinner, splitAtCommas_close, ih, prepend_prependAll,
      prepend_prependAll]
    cases splitAtCommas 0 rest <;> simp [prependAll]

/-- Cutting at the commas recovers the segments between them. -/
theorem splitAtCommas_intercalate {segs : List (List Token)} (hne : segs ≠ [])
    (h : ∀ s ∈ segs, Segment s) : splitAtCommas 0 ([Token.comma].intercalate segs) = segs := by
  induction segs with
  | nil => exact absurd rfl hne
  | cons s segs ih =>
    have hs := h s List.mem_cons_self
    cases segs with
    | nil =>
      have hsplit := splitAtCommas_segment_append hs []
      rw [List.append_nil] at hsplit
      rw [List.intercalate_singleton, hsplit]
      simp [splitAtCommas, prependAll]
    | cons s' segs =>
      rw [List.intercalate_cons_cons, List.append_assoc, splitAtCommas_segment_append hs,
        List.singleton_append, splitAtCommas_comma,
        ih (List.cons_ne_nil _ _) fun s hs => h s (List.mem_cons_of_mem _ hs)]
      simp [prependAll]

/-- Balanced tokens are segments with commas between them. -/
theorem exists_segments {ts : List Token} (h : Balanced ts) :
    ∃ segs ≠ [], (∀ s ∈ segs, Segment s) ∧ ts = [Token.comma].intercalate segs := by
  -- put segment tokens in front of the first segment
  have hfront : ∀ {front rest : List Token}, Segment front →
      (∃ segs ≠ [], (∀ s ∈ segs, Segment s) ∧ rest = [Token.comma].intercalate segs) →
      ∃ segs ≠ [], (∀ s ∈ segs, Segment s) ∧ front ++ rest = [Token.comma].intercalate segs := by
    rintro front rest hf ⟨segs, hne, hseg, rfl⟩
    obtain ⟨s, segs, rfl⟩ := List.exists_cons_of_ne_nil hne
    refine ⟨(front ++ s) :: segs, List.cons_ne_nil _ _, ?_, ?_⟩
    · intro u hu
      rcases List.mem_cons.1 hu with rfl | hu
      · exact hf.append (hseg s List.mem_cons_self)
      · exact hseg u (List.mem_cons_of_mem _ hu)
    · cases segs <;> simp
  induction h with
  | nil => exact ⟨[[]], List.cons_ne_nil _ _, by simpa using Segment.nil, by simp⟩
  | @token t ts ht _ ih =>
    by_cases hcomma : t = .comma
    · subst hcomma
      obtain ⟨segs, hne, hseg, rfl⟩ := ih
      refine ⟨[] :: segs, List.cons_ne_nil _ _, ?_, ?_⟩
      · intro s hs
        rcases List.mem_cons.1 hs with rfl | hs
        · exact .nil
        · exact hseg s hs
      · obtain ⟨s, segs, rfl⟩ := List.exists_cons_of_ne_nil hne
        rw [List.intercalate_cons_cons]
        rfl
    · exact hfront (.singleton ht hcomma) ih
  | @paren inner ts hinner _ _ ih =>
    have := hfront (.group hinner) ih
    simpa using this

/-- Every argument between the commas is a segment, and commas between them give the tokens. -/
theorem segments_splitAtCommas {ts : List Token} (h : Balanced ts) :
    (∀ s ∈ splitAtCommas 0 ts, Segment s) ∧
      [Token.comma].intercalate (splitAtCommas 0 ts) = ts := by
  obtain ⟨segs, hne, hseg, rfl⟩ := exists_segments h
  rw [splitAtCommas_intercalate hne hseg]
  exact ⟨hseg, rfl⟩

end SheetTemplate.Formula
