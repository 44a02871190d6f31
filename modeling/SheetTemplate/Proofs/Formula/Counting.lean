import SheetTemplate.Proofs.Formula.Capping
import Mathlib.Order.Bounds.Basic

/-!
# Counting parentheses

The parenthesis that closes a call is found, and its arguments are cut, by scans along places that
count the parentheses that are open (`matchingPlace`, `argumentsOf`). Such a scan could count down
from zero, or cut out a part whose end is in front of its start. What counting down from zero gives
is left open: `down` may fail there, stay at zero or go on at some large number.

* `Covered`: no more parentheses close than are open, so that counting never goes below zero.
* `seek_succ` and `cut_eq`: the scans never count down from zero, and find what `closing` and
  `splitAtCommas` find.
* `parentheses_counted_exactly`: what is found, in terms of how often parentheses open and close.
-/

namespace SheetTemplate.Formula

/-- What can go wrong in a scan. -/
inductive ScanFault
  /-- The count of open parentheses would go below zero. -/
  | belowZero
  /-- A part would end in front of its start, or behind the last token. -/
  | outOfBounds

/-- Count down, and fail at zero. -/
def countDown : Nat → Except ScanFault Nat
  | 0 => .error .belowZero
  | n + 1 => .ok n

/-- The parentheses that are open behind a token, where `opened` are open in front of it. -/
def Token.countedBy (down : Nat → Except ScanFault Nat) (opened : Nat) :
    Token → Except ScanFault Nat
  | .openParen => .ok (opened + 1)
  | .closeParen => down opened
  | _ => .ok opened

/-- The tokens from the place `start` up to the place `stop`. -/
def part (ts : List Token) (start stop : Nat) : Except ScanFault (List Token) :=
  if start ≤ stop ∧ stop ≤ ts.length then .ok (ts.extract start stop) else .error .outOfBounds

/-- The place of the closing parenthesis behind which no parenthesis is open, in tokens that start
at a place. -/
def seek (down : Nat → Except ScanFault Nat) :
    (place opened : Nat) → List Token → Except ScanFault (Option Nat)
  | _, _, [] => .ok none
  | place, opened, t :: ts =>
    match t.countedBy down opened with
    | .error fault => .error fault
    | .ok opened =>
      if t = .closeParen ∧ opened = 0 then .ok (some place) else seek down (place + 1) opened ts

/-- The place of the partner of the parenthesis at a place. -/
def matchingPlace (down : Nat → Except ScanFault Nat) (ts : List Token) (place : Nat) :
    Except ScanFault (Option Nat) :=
  seek down place 0 (ts.drop place)

/-- The parts between the commas outside all parentheses. The scan has come to a place, and the part
it is in started at `start`. -/
def cut (down : Nat → Except ScanFault Nat) (ts : List Token) :
    (place start opened : Nat) → List Token → Except ScanFault (List (List Token))
  | _, start, _, [] =>
    match part ts start ts.length with
    | .error fault => .error fault
    | .ok arg => .ok [arg]
  | place, start, opened, t :: rest =>
    if t = .comma ∧ opened = 0 then
      match part ts start place with
      | .error fault => .error fault
      | .ok arg =>
        match cut down ts (place + 1) (place + 1) 0 rest with
        | .error fault => .error fault
        | .ok args => .ok (arg :: args)
    else
      match t.countedBy down opened with
      | .error fault => .error fault
      | .ok opened => cut down ts (place + 1) start opened rest

/-- The arguments that some tokens hold. -/
def argumentsOf (down : Nat → Except ScanFault Nat) (ts : List Token) :
    Except ScanFault (List (List Token)) :=
  cut down ts 0 0 0 ts

/-- The places behind `place` up to which, from `place` on, parentheses open as often as they
close. -/
def evenPlaces (ts : List Token) (place : Nat) : Set Nat :=
  {closed | place < closed ∧ closed < ts.length ∧
    (ts.extract place (closed + 1)).count .openParen =
      (ts.extract place (closed + 1)).count .closeParen}

/-- Up to any place, no more parentheses close than open, where `opened` are open in front. -/
def Covered (opened : Nat) (ts : List Token) : Prop :=
  ∀ front, front <+: ts → front.count .closeParen ≤ front.count .openParen + opened

/-! ### Counts -/

theorem count_cons_of_not_isParen {t : Token} (ht : t.isParen = false) (ts : List Token) :
    (t :: ts).count .openParen = ts.count .openParen ∧
      (t :: ts).count .closeParen = ts.count .closeParen := by
  constructor
  all_goals
    refine List.count_cons_of_ne ?_
    rintro rfl
    cases ht

theorem Balanced.count_eq {ts : List Token} (h : Balanced ts) :
    ts.count .openParen = ts.count .closeParen := by
  induction h with
  | nil => rfl
  | token ht _ ih =>
    obtain ⟨hopen, hclose⟩ := count_cons_of_not_isParen ht _
    rw [hopen, hclose, ih]
  | paren _ _ ih₁ ih₂ =>
    rw [List.count_cons_self, List.count_cons_of_ne (by decide), List.count_append,
      List.count_append, List.count_cons_self, List.count_cons_of_ne (by decide), ih₁, ih₂,
      Nat.add_assoc]

theorem covered_nil (opened : Nat) : Covered opened [] := by
  intro front hfront
  rw [List.prefix_nil.1 hfront]
  exact Nat.zero_le _

theorem covered_cons {opened : Nat} {t : Token} {ts : List Token} :
    Covered opened (t :: ts) ↔ ∀ front, front <+: ts →
      (t :: front).count .closeParen ≤ (t :: front).count .openParen + opened := by
  constructor
  · intro h front hfront
    exact h _ (List.cons_prefix_cons.2 ⟨rfl, hfront⟩)
  · intro h front hfront
    cases front with
    | nil => exact Nat.zero_le _
    | cons u front =>
      obtain ⟨rfl, htail⟩ := List.cons_prefix_cons.1 hfront
      exact h front htail

theorem covered_token {t : Token} (ht : t.isParen = false) {opened : Nat} {ts : List Token} :
    Covered opened (t :: ts) ↔ Covered opened ts := by
  rw [covered_cons]
  refine forall₂_congr fun front _ => ?_
  obtain ⟨hopen, hclose⟩ := count_cons_of_not_isParen ht front
  rw [hopen, hclose]

theorem covered_open {opened : Nat} {ts : List Token} :
    Covered opened (.openParen :: ts) ↔ Covered (opened + 1) ts := by
  rw [covered_cons]
  refine forall₂_congr fun front _ => ?_
  rw [List.count_cons_self, List.count_cons_of_ne (by decide), Nat.add_right_comm, Nat.add_assoc]

theorem covered_close_succ {opened : Nat} {ts : List Token} :
    Covered (opened + 1) (.closeParen :: ts) ↔ Covered opened ts := by
  rw [covered_cons]
  refine forall₂_congr fun front _ => ?_
  rw [List.count_cons_self, List.count_cons_of_ne (by decide), ← Nat.add_assoc,
    Nat.add_le_add_iff_right]

theorem not_covered_close_zero (ts : List Token) : ¬ Covered 0 (.closeParen :: ts) := by
  intro h
  exact absurd (h [.closeParen] (List.prefix_append [_] ts)) (by decide)

/-- No parenthesis is found where those that close are all open before. -/
theorem closing_eq_none_iff {opened : Nat} {ts : List Token} :
    closing opened ts = none ↔ Covered opened ts := by
  induction ts generalizing opened with
  | nil => exact iff_of_true (by cases opened <;> rfl) (covered_nil opened)
  | cons t ts ih =>
    cases t using Token.paren_cases with
    | openParen => rw [closing_open, Option.map_eq_none_iff, ih, covered_open]
    | closeParen =>
      cases opened with
      | zero => exact iff_of_false nofun (not_covered_close_zero ts)
      | succ opened => rw [closing_close_succ, Option.map_eq_none_iff, ih, covered_close_succ]
    | other t ht => rw [closing_token ht, Option.map_eq_none_iff, ih, covered_token ht]

theorem Balanced.covered {ts : List Token} (h : Balanced ts) : Covered 0 ts := by
  rw [← closing_eq_none_iff]
  simpa [closing] using closing_balanced_append h 0 []

/-- Every comma of a segment stands inside parentheses. -/
theorem Segment.comma_inside {front back : List Token}
    (h : Segment (front ++ .comma :: back)) :
    front.count .closeParen < front.count .openParen := by
  generalize hts : front ++ .comma :: back = ts at h
  induction h generalizing front with
  | nil => cases front <;> cases hts
  | token ht hcomma _ ih =>
    cases front with
    | nil =>
      cases hts
      exact absurd rfl hcomma
    | cons u front =>
      obtain ⟨rfl, htail⟩ := List.cons.inj hts
      obtain ⟨hopen, hclose⟩ := count_cons_of_not_isParen ht front
      rw [hopen, hclose]
      exact ih htail
  | @paren inner ts hinner _ ih =>
    cases front with
    | nil => cases hts
    | cons u front =>
      obtain ⟨rfl, htail⟩ := List.cons.inj hts
      rw [List.count_cons_self, List.count_cons_of_ne (by decide)]
      -- the comma stands between the two parentheses or behind them
      rcases List.append_eq_append_iff.1 htail with ⟨more, hinner', -⟩ | ⟨more, rfl, hback⟩
      · have := hinner.covered front ⟨more, hinner'.symm⟩
        omega
      · cases more with
        | nil => cases hback
        | cons u more =>
          obtain ⟨rfl, htail'⟩ := List.cons.inj hback
          have hcount := hinner.count_eq
          have hmore := ih htail'.symm
          rw [List.count_append, List.count_append, List.count_cons_self,
            List.count_cons_of_ne (by decide)]
          omega

/-! ### Parts -/

theorem drop_eq_cons_iff {ts rest : List Token} {place : Nat} {t : Token} :
    ts.drop place = t :: rest ↔ ts[place]? = some t ∧ ts.drop (place + 1) = rest := by
  rw [List.drop_eq_getElem?_toList_append]
  cases hplace : ts[place]? with
  | none =>
    rw [List.drop_eq_nil_of_le (Nat.le_succ_of_le (List.getElem?_eq_none_iff.1 hplace))]
    exact iff_of_false nofun nofun
  | some u => simp

/-- One more token at the end of a part. -/
theorem extract_succ {ts : List Token} {start place : Nat} {t : Token} (ht : ts[place]? = some t)
    (hstart : start ≤ place) : ts.extract start (place + 1) = ts.extract start place ++ [t] := by
  rw [List.extract_eq_take_drop, List.extract_eq_take_drop, Nat.sub_add_comm hstart,
    List.take_add_one, List.getElem?_drop, Nat.add_sub_cancel' hstart, ht]
  rfl

/-! ### The scans -/

theorem map_place_putInFront (place : Nat) (t : Token) (o : Option (List Token × List Token)) :
    (o.map (putInFront [t])).map (fun p => place + p.1.length) =
      o.map fun p => place + 1 + p.1.length := by
  rw [Option.map_map]
  congr 1
  funext p
  show place + (p.1.length + 1) = place + 1 + p.1.length
  omega

theorem prependAll_concat (front : List Token) (t : Token) (segs : List (List Token)) :
    prependAll (front ++ [t]) segs = prependAll front (prepend t segs) := by
  cases segs <;> simp [prependAll, prepend]

section Scans

variable {down : Nat → Except ScanFault Nat} (hdown : ∀ n, down (n + 1) = .ok n)
include hdown

/-- Behind an opening parenthesis the scan never counts down from zero, and finds the parenthesis
that closes. -/
theorem seek_succ (place opened : Nat) (ts : List Token) :
    seek down place (opened + 1) ts =
      .ok ((closing opened ts).map fun p => place + p.1.length) := by
  induction ts generalizing place opened with
  | nil => cases opened <;> rfl
  | cons t ts ih =>
    cases t using Token.paren_cases with
    | openParen =>
      rw [closing_open, map_place_putInFront, ← ih]
      rfl
    | closeParen =>
      rw [seek, Token.countedBy, hdown]
      cases opened with
      | zero => rfl
      | succ opened =>
        rw [closing_close_succ, map_place_putInFront, ← ih]
        rfl
    | other t ht =>
      rw [closing_token ht, map_place_putInFront, ← ih]
      cases t <;> cases ht <;> rfl

theorem matchingPlace_eq {ts : List Token} {place : Nat} (hopen : ts[place]? = some .openParen) :
    matchingPlace down ts place = .ok (closingPlace ts place) := by
  rw [matchingPlace, drop_eq_cons_iff.2 ⟨hopen, rfl⟩]
  exact seek_succ hdown (place + 1) 0 _

/-- **One token of a part.** The count does not go below zero, and covers the tokens behind. -/
theorem exists_countedBy {opened : Nat} {t : Token} {rest : List Token}
    (h : Covered opened (t :: rest)) (hcomma : ¬ (t = .comma ∧ opened = 0)) :
    ∃ opened', t.countedBy down opened = .ok opened' ∧ Covered opened' rest ∧
      splitAtCommas opened (t :: rest) = prepend t (splitAtCommas opened' rest) := by
  cases t using Token.paren_cases with
  | openParen => exact ⟨opened + 1, rfl, covered_open.1 h, splitAtCommas_open opened rest⟩
  | closeParen =>
    cases opened with
    | zero => exact absurd h (not_covered_close_zero rest)
    | succ opened =>
      exact ⟨opened, hdown opened, covered_close_succ.1 h, splitAtCommas_close opened rest⟩
  | other t ht =>
    refine ⟨opened, ?_, (covered_token ht).1 h, splitAtCommas_token ht ?_ rest⟩
    · cases t <;> cases ht <;> rfl
    · by_cases heq : t = .comma
      · exact .inl (Nat.pos_of_ne_zero fun hzero => hcomma ⟨heq, hzero⟩)
      · exact .inr heq

/-- **The cutting scan** neither counts down from zero nor leaves the tokens, where all parentheses
that close are open before, and it cuts as `splitAtCommas` does. -/
theorem cut_eq {ts rest : List Token} {place start opened : Nat}
    (hrest : ts.drop place = rest) (hplace : place ≤ ts.length) (hstart : start ≤ place)
    (h : Covered opened rest) :
    cut down ts place start opened rest =
      .ok (prependAll (ts.extract start place) (splitAtCommas opened rest)) := by
  -- on the tokens that are left; the part that is being read runs from `start` to `place`
  induction rest generalizing place start opened with
  | nil =>
    obtain rfl : place = ts.length := Nat.le_antisymm hplace (List.drop_eq_nil_iff.1 hrest)
    rw [cut, part, if_pos ⟨hstart, Nat.le_refl _⟩]
    simp [splitAtCommas, prependAll]
  | cons t rest ih =>
    obtain ⟨ht, hdrop⟩ := drop_eq_cons_iff.1 hrest
    have hlt : place < ts.length := (List.getElem?_eq_some_iff.1 ht).1
    rw [cut]
    split_ifs with hcomma
    · obtain ⟨rfl, rfl⟩ := hcomma
      have hempty : ts.extract (place + 1) (place + 1) = [] := by simp
      rw [part, if_pos ⟨hstart, hplace⟩, ih hdrop hlt (Nat.le_refl _) ((covered_token rfl).1 h),
        hempty, prependAll_nil (splitAtCommas_ne_nil _ _), splitAtCommas_comma, prependAll,
        List.append_nil]
    · obtain ⟨opened', hcount, hcovered, hsplit⟩ := exists_countedBy hdown h hcomma
      rw [hcount, hsplit, ← prependAll_concat, ← extract_succ ht hstart]
      exact ih hdrop hlt (Nat.le_succ_of_le hstart) hcovered

theorem argumentsOf_eq {ts : List Token} (h : Balanced ts) :
    argumentsOf down ts = .ok (splitAtCommas 0 ts) := by
  rw [argumentsOf, cut_eq hdown List.drop_zero (Nat.zero_le _) (Nat.le_refl _) h.covered]
  simp [prependAll_nil (splitAtCommas_ne_nil _ _)]

end Scans

/-! ### The place that is found -/

theorem closing_of_closingPlace {ts : List Token} {place closed : Nat}
    (h : closingPlace ts place = some closed) :
    closing 0 (ts.drop (place + 1)) =
      some (ts.extract (place + 1) closed, ts.drop (closed + 1)) := by
  obtain ⟨⟨inner, rest⟩, hclosing, rfl⟩ := Option.map_eq_some_iff.1 h
  obtain ⟨hdrop, -⟩ := closing_eq_some_iff.1 hclosing
  rw [hclosing, Nat.add_assoc (place + 1), ← List.drop_drop, hdrop, List.extract_eq_take_drop,
    hdrop]
  simp

/-- Behind an opening parenthesis, as many parentheses open as close where one more closes. -/
theorem mem_evenPlaces_iff {ts : List Token} {place closed : Nat}
    (hopen : ts[place]? = some .openParen) :
    closed ∈ evenPlaces ts place ↔ place < closed ∧ closed < ts.length ∧
      (ts.extract (place + 1) (closed + 1)).count .openParen + 1 =
        (ts.extract (place + 1) (closed + 1)).count .closeParen := by
  refine and_congr_right fun hlt => ?_
  have hfirst :
      ts.extract place (closed + 1) = .openParen :: ts.extract (place + 1) (closed + 1) := by
    rw [List.extract_eq_take_drop, List.extract_eq_take_drop, drop_eq_cons_iff.2 ⟨hopen, rfl⟩,
      Nat.succ_sub hlt.le, List.take_succ_cons, Nat.add_sub_add_right]
  rw [hfirst, List.count_cons_self, List.count_cons_of_ne (by decide)]

theorem isLeast_of_closingPlace {ts : List Token} {place closed : Nat}
    (hopen : ts[place]? = some .openParen) (h : closingPlace ts place = some closed) :
    IsLeast (evenPlaces ts place) closed := by
  obtain ⟨hlt, hclosed, hinner⟩ := closingPlace_eq_some_iff.1 h
  constructor
  · refine (mem_evenPlaces_iff hopen).2 ⟨hlt, (List.getElem?_eq_some_iff.1 hclosed).1, ?_⟩
    rw [extract_succ hclosed hlt, List.count_append, List.count_append,
      List.extract_eq_take_drop, hinner.count_eq]
    rfl
  · intro other hother
    obtain ⟨-, -, hcount⟩ := (mem_evenPlaces_iff hopen).1 hother
    by_contra hlt
    -- so far no more parentheses close than open between the two
    have hfront := hinner.covered (ts.extract (place + 1) (other + 1))
      (List.take_prefix_take_left (by omega))
    omega

theorem evenPlaces_eq_empty {ts : List Token} {place : Nat} (hopen : ts[place]? = some .openParen)
    (h : closingPlace ts place = none) : evenPlaces ts place = ∅ := by
  have hcovered := closing_eq_none_iff.1 (Option.map_eq_none_iff.1 h)
  refine Set.eq_empty_of_forall_notMem fun closed hclosed => ?_
  obtain ⟨-, -, hcount⟩ := (mem_evenPlaces_iff hopen).1 hclosed
  have hfront := hcovered _ (List.take_prefix (closed + 1 - (place + 1)) _)
  rw [← List.extract_eq_take_drop] at hfront
  omega

/-- **The place that is found** is the first one up to which parentheses open as often as they
close. -/
theorem closingPlace_eq_some_iff_isLeast {ts : List Token} {place closed : Nat}
    (hopen : ts[place]? = some .openParen) :
    closingPlace ts place = some closed ↔ IsLeast (evenPlaces ts place) closed := by
  refine ⟨isLeast_of_closingPlace hopen, fun h => ?_⟩
  cases hfound : closingPlace ts place with
  | none =>
    rw [evenPlaces_eq_empty hopen hfound] at h
    exact absurd h.1 (Set.notMem_empty closed)
  | some found => rw [(isLeast_of_closingPlace hopen hfound).unique h]

theorem closingPlace_eq_none_iff {ts : List Token} {place : Nat}
    (hopen : ts[place]? = some .openParen) :
    closingPlace ts place = none ↔ evenPlaces ts place = ∅ := by
  refine ⟨evenPlaces_eq_empty hopen, fun h => ?_⟩
  by_contra hne
  obtain ⟨found, hfound⟩ := Option.ne_none_iff_exists'.1 hne
  exact Set.notMem_empty found (h ▸ (isLeast_of_closingPlace hopen hfound).1)

/-- **Parentheses are matched, and arguments cut, exactly and safely.** Behind an opening
parenthesis the scan finds the first place up to which parentheses open as often as they close, and
nothing where there is no such place. The tokens between are cut into arguments that commas put
together again; in each of them parentheses open as often as they close, none closes that is not
open, and each comma stands inside some. What counting down from zero gives does not matter, as
neither scan ever does it, and every part lies within the tokens. -/
theorem parentheses_counted_exactly {ts : List Token} {place : Nat}
    (hopen : ts[place]? = some .openParen) {down : Nat → Except ScanFault Nat}
    (hdown : ∀ n, down (n + 1) = .ok n) :
    matchingPlace down ts place = .ok (closingPlace ts place) ∧
    (∀ closed, closingPlace ts place = some closed ↔ IsLeast (evenPlaces ts place) closed) ∧
    (closingPlace ts place = none ↔ evenPlaces ts place = ∅) ∧
    ∀ closed, closingPlace ts place = some closed →
      let inner := ts.extract (place + 1) closed
      closing 0 (ts.drop (place + 1)) = some (inner, ts.drop (closed + 1)) ∧
      argumentsOf down inner = .ok (splitAtCommas 0 inner) ∧
      [Token.comma].intercalate (splitAtCommas 0 inner) = inner ∧
      ∀ arg ∈ splitAtCommas 0 inner,
        arg.count .openParen = arg.count .closeParen ∧
        (∀ front, front <+: arg → front.count .closeParen ≤ front.count .openParen) ∧
        ∀ front back, arg = front ++ .comma :: back →
          front.count .closeParen < front.count .openParen := by
  refine ⟨matchingPlace_eq hdown hopen, fun closed => closingPlace_eq_some_iff_isLeast hopen,
    closingPlace_eq_none_iff hopen, fun closed hclosed => ?_⟩
  have hclosing := closing_of_closingPlace hclosed
  have hinner := (closing_eq_some_iff.1 hclosing).2
  obtain ⟨hsegments, hcommas⟩ := segments_splitAtCommas hinner
  refine ⟨hclosing, argumentsOf_eq hdown hinner, hcommas, fun arg harg => ?_⟩
  have hsegment := hsegments arg harg
  refine ⟨hsegment.balanced.count_eq, hsegment.balanced.covered, ?_⟩
  rintro front back rfl
  exact hsegment.comma_inside

/-- A call inside a call, and a parenthesis that is not closed. Counting down may fail at zero or
stay there. -/
theorem parentheses_counted_exactly_nested :
    let ts : List Token := [.identifier "max", .openParen, .identifier "km", .comma,
      .identifier "abs", .openParen, .identifier "uren", .comma, .identifier "km", .closeParen,
      .closeParen, .operator .add, .openParen, .identifier "km"]
    let args := [ts.extract 2 3, ts.extract 4 10]
    matchingPlace countDown ts 1 = .ok (some 10) ∧ IsLeast (evenPlaces ts 1) 10 ∧
      argumentsOf countDown (ts.extract 2 10) = .ok args ∧
      argumentsOf (fun n => .ok (n - 1)) (ts.extract 2 10) = .ok args ∧
      matchingPlace countDown ts 12 = .ok none ∧ evenPlaces ts 12 = ∅ := by
  intro ts args
  have hclosed : closingPlace ts 1 = some 10 := by decide +kernel
  have hunclosed : closingPlace ts 12 = none := by decide +kernel
  obtain ⟨hmatch, hleast, -, hcall⟩ :=
    @parentheses_counted_exactly ts 1 rfl countDown fun _ => rfl
  obtain ⟨-, -, -, hcall'⟩ :=
    @parentheses_counted_exactly ts 1 rfl (fun n => .ok (n - 1)) fun _ => rfl
  obtain ⟨hmatch', -, hempty, -⟩ :=
    @parentheses_counted_exactly ts 12 rfl countDown fun _ => rfl
  rw [hclosed] at hmatch
  rw [hunclosed] at hmatch'
  exact ⟨hmatch, (hleast 10).1 hclosed, (hcall 10 hclosed).2.1, (hcall' 10 hclosed).2.1, hmatch',
    hempty.1 hunclosed⟩

/-- In front of a parenthesis that closes and is not open, the count would go below zero. -/
example : matchingPlace countDown [.closeParen] 0 = .error .belowZero := rfl

end SheetTemplate.Formula
