import SheetTemplate.Formula.Body

/-!
# What an exported formula is made of

The text of an exported formula is cut into pieces: texts that no reference has a part in, and names
for which references are written (`Formula.pieces`). Whatever the references are, writing them for
the names gives the text back (`bodyChars_eq_flatMap`), so the names among the pieces are those that
the export writes as references.

A tree refers to these names, in their order (`pieceNames_sublist`), and in an argument that is no
expression also to those in front of an opening parenthesis, which the export writes as the names of
functions (`names_perm`).
-/

namespace SheetTemplate.Formula

/-- A piece of an exported text: a text of its own, or a name for which a reference is written. -/
inductive Piece
  | text (cs : List Char)
  | name (n : String)
  deriving DecidableEq

/-- The text of a piece, where `reference` writes the names. -/
def Piece.chars (reference : String → String) : Piece → List Char
  | text cs => cs
  | name n => (reference n).toList

/-- The name for which a reference is written. -/
def Piece.name? : Piece → Option String
  | text _ => none
  | name n => some n

/-- The names among some pieces. -/
def pieceNames (ps : List Piece) : List String := ps.filterMap Piece.name?

/-- The pieces of tokens written one after the other. -/
def tokenPieces : List Token → List Piece
  | [] => []
  | .identifier name :: ts =>
    (if opens ts then .text (Function.exportNameOf name).toList else .name name) :: tokenPieces ts
  | t :: ts => .text t.chars :: tokenPieces ts

/-- The names in front of an opening parenthesis. -/
def callNames : List Token → List String
  | [] => []
  | .identifier name :: ts => if opens ts then name :: callNames ts else callNames ts
  | _ :: ts => callNames ts

namespace Expr

mutual

/-- The pieces of the text of a tree. -/
def pieces : Expr → List Piece
  | number x => [.text (Token.number x).chars]
  | identifier name => [.name name]
  | binary op left right => left.pieces ++ .text op.chars :: right.pieces
  | negate operand => .text ['-'] :: operand.pieces
  | group inner => .text ['('] :: inner.pieces ++ [.text [')']]
  | call name args =>
    .text (Function.exportNameOf name).toList :: .text ['('] :: argPieces args ++ [.text [')']]
  | invalid tokens => tokenPieces tokens

/-- The pieces of the texts of some trees with commas between them. -/
def argPieces : List Expr → List Piece
  | [] => []
  | [e] => e.pieces
  | e :: es => e.pieces ++ .text [','] :: argPieces es

end

mutual

/-- The names of calls in the arguments of a tree that are no expressions. -/
def strayCalls : Expr → List String
  | number _ | identifier _ => []
  | binary _ left right => left.strayCalls ++ right.strayCalls
  | negate operand => operand.strayCalls
  | group inner => inner.strayCalls
  | call _ args => strayCallsOfAll args
  | invalid tokens => callNames tokens

/-- The names of calls in the arguments of some trees that are no expressions. -/
def strayCallsOfAll : List Expr → List String
  | [] => []
  | e :: es => e.strayCalls ++ strayCallsOfAll es

end

end Expr

/-- The pieces of the worksheet body of a formula. -/
def pieces (l : Limits) (formula : List Char) : List Piece :=
  match parseChars l formula with
  | .ok e => e.pieces
  | .error (.malformed _) | .error (.tooDeep _) => tokenPieces (tokenize l.maxLength formula.tail)
  | .error .missingEquals | .error .empty | .error (.tooLong _ _) => [.text ['0']]

/-! ### The text of the pieces -/

section

variable (reference : String → String)

theorem tokensBody_eq_flatMap (ts : List Token) :
    tokensBody reference ts = (tokenPieces ts).flatMap (Piece.chars reference) := by
  induction ts with
  | nil => rfl
  | cons t ts ih =>
    cases t with
    | identifier name =>
      by_cases h : opens ts = true <;> simp [tokensBody, tokenPieces, Piece.chars, h, ih]
    | number _ | operator _ | openParen | closeParen | comma =>
      simp [tokensBody, tokenPieces, Piece.chars, ih]

namespace Expr

mutual

theorem body_eq_flatMap : (e : Expr) →
    e.body reference = e.pieces.flatMap (Piece.chars reference)
  | number x => by simp [body, pieces, Piece.chars]
  | identifier name => by simp [body, pieces, Piece.chars]
  | binary op left right => by
    simp [body, pieces, Piece.chars, body_eq_flatMap left, body_eq_flatMap right]
  | negate operand => by simp [body, pieces, Piece.chars, body_eq_flatMap operand]
  | group inner => by simp [body, pieces, Piece.chars, body_eq_flatMap inner]
  | call name args => by simp [body, pieces, Piece.chars, argsBody_eq_flatMap args]
  | invalid tokens => tokensBody_eq_flatMap reference tokens

theorem argsBody_eq_flatMap : (es : List Expr) →
    argsBody reference es = (argPieces es).flatMap (Piece.chars reference)
  | [] => rfl
  | [e] => body_eq_flatMap e
  | e :: e' :: es => by
    simp [argsBody, argPieces, Piece.chars, body_eq_flatMap e, argsBody_eq_flatMap (e' :: es)]

end

end Expr

/-- **The pieces of a formula make up its exported text**, whatever the references are. -/
theorem bodyChars_eq_flatMap (l : Limits) (formula : List Char) :
    bodyChars l reference formula = (pieces l formula).flatMap (Piece.chars reference) := by
  unfold bodyChars pieces
  cases parseChars l formula with
  | ok e => exact e.body_eq_flatMap reference
  | error e =>
    cases e with
    | malformed _ | tooDeep _ => exact tokensBody_eq_flatMap reference _
    | missingEquals | empty | tooLong _ _ => rfl

end

/-! ### Names among the pieces -/

@[simp] theorem pieceNames_nil : pieceNames [] = [] := rfl

@[simp] theorem pieceNames_text (cs : List Char) (ps : List Piece) :
    pieceNames (.text cs :: ps) = pieceNames ps := rfl

@[simp] theorem pieceNames_name (name : String) (ps : List Piece) :
    pieceNames (.name name :: ps) = name :: pieceNames ps := rfl

@[simp] theorem pieceNames_append (ps qs : List Piece) :
    pieceNames (ps ++ qs) = pieceNames ps ++ pieceNames qs := List.filterMap_append

theorem mem_pieceNames_iff {name : String} {ps : List Piece} :
    name ∈ pieceNames ps ↔ .name name ∈ ps := by
  induction ps with
  | nil => simp
  | cons p ps ih => cases p <;> simp [ih]

theorem pieceNames_sublist_tokenNames (ts : List Token) :
    (pieceNames (tokenPieces ts)).Sublist (tokenNames ts) := by
  induction ts with
  | nil => exact .slnil
  | cons t ts ih =>
    cases t with
    | identifier name =>
      rw [tokenPieces]
      split
      · exact ih.cons name
      · exact ih.cons_cons name
    | number _ | operator _ | openParen | closeParen | comma => exact ih

theorem count_tokenNames (name : String) (ts : List Token) : (tokenNames ts).count name =
    (pieceNames (tokenPieces ts)).count name + (callNames ts).count name := by
  induction ts with
  | nil => rfl
  | cons t ts ih =>
    rw [tokenNames] at ih ⊢
    cases t with
    | identifier name' =>
      by_cases h : opens ts = true <;>
        simp [tokenPieces, callNames, h, ih, List.count_cons] <;> omega
    | number _ | operator _ | openParen | closeParen | comma =>
      simp [tokenPieces, callNames, ih]

namespace Expr

mutual

/-- A tree refers to the names that its export writes as references, in their order. -/
theorem pieceNames_sublist : (e : Expr) → (pieceNames e.pieces).Sublist e.names
  | number _ => .slnil
  | identifier _ => .refl _
  | binary _ left right => by
    simpa [names, pieces] using (pieceNames_sublist left).append (pieceNames_sublist right)
  | negate operand => pieceNames_sublist operand
  | group inner => by simpa [names, pieces] using pieceNames_sublist inner
  | call _ args => by simpa [names, pieces] using pieceNames_sublist_namesOfAll args
  | invalid ts => pieceNames_sublist_tokenNames ts

theorem pieceNames_sublist_namesOfAll :
    (es : List Expr) → (pieceNames (argPieces es)).Sublist (namesOfAll es)
  | [] => .slnil
  | [e] => by simpa [argPieces, namesOfAll] using pieceNames_sublist e
  | e :: e' :: es => by
    show (pieceNames (e.pieces ++ .text [','] :: argPieces (e' :: es))).Sublist
      (e.names ++ namesOfAll (e' :: es))
    simpa using (pieceNames_sublist e).append (pieceNames_sublist_namesOfAll (e' :: es))

end

mutual

theorem count_names (name : String) : (e : Expr) →
    e.names.count name = (pieceNames e.pieces).count name + e.strayCalls.count name
  | number _ => rfl
  | identifier _ => rfl
  | binary _ left right => by
    simp [names, pieces, strayCalls, count_names name left, count_names name right]
    omega
  | negate operand => count_names name operand
  | group inner => by simp [names, pieces, strayCalls, count_names name inner]
  | call _ args => by simp [names, pieces, strayCalls, count_namesOfAll name args]
  | invalid ts => count_tokenNames name ts

theorem count_namesOfAll (name : String) : (es : List Expr) → (namesOfAll es).count name =
    (pieceNames (argPieces es)).count name + (strayCallsOfAll es).count name
  | [] => rfl
  | [e] => by simp [namesOfAll, argPieces, strayCallsOfAll, count_names name e]
  | e :: e' :: es => by
    show (e.names ++ namesOfAll (e' :: es)).count name =
      (pieceNames (e.pieces ++ .text [','] :: argPieces (e' :: es))).count name +
        (e.strayCalls ++ strayCallsOfAll (e' :: es)).count name
    simp [count_names name e, count_namesOfAll name (e' :: es)]
    omega

end

/-- **The names of a tree** are those that its export writes as references, and the names of calls
in arguments that are no expressions. -/
theorem names_perm (e : Expr) : e.names.Perm (pieceNames e.pieces ++ e.strayCalls) :=
  List.perm_iff_count.2 fun name => by rw [List.count_append, count_names]

theorem mem_names_iff {name : String} (e : Expr) :
    name ∈ e.names ↔ .name name ∈ e.pieces ∨ name ∈ e.strayCalls := by
  rw [e.names_perm.mem_iff, List.mem_append, mem_pieceNames_iff]

end Expr
end SheetTemplate.Formula
