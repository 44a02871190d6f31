import SheetTemplate.Json.Reader
import SheetTemplate.Json.Writer

/-!
# Strings of documents

A string is written with escapes for quotes, backslashes and control characters, and all of them are
read as the characters that they stand for. A control character without an escape of its own is
written as a code unit, which is a whole character by itself (`joinPieces_written`). So every text
is read back from its string, up to the closing quote (`takeString_written`).
-/

namespace SheetTemplate.Json

/-- What a character is read as where it is written in a string. -/
def writtenPiece (c : Char) : Piece :=
  if c.toNat < 0x20 ∧ c ∉ ['\x08', '\t', '\n', '\x0c', '\r'] then .unit c.toNat else .char c

/-- The digits of the code unit of a control character. -/
theorem hexUnit?_control : ∀ n < 0x20,
    hexUnit? '0' '0' (hexDigit (n / 16)) (hexDigit (n % 16)) = some n := by
  decide

/-- An escape of one character, which is no code unit. -/
theorem takePieces_escape {c d : Char} (hc : c ≠ 'u') (hd : unescape? c = some d)
    (cs : List Char) :
    takePieces ('\\' :: c :: cs) = (takePieces cs).map fun p => (.char d :: p.1, p.2) := by
  rw [takePieces, hd]
  · cases takePieces cs <;> rfl
  · rintro a b c' d' cs' ⟨⟩
    exact absurd rfl hc

/-- **What is written of a character is one piece.** -/
theorem takePieces_escapeChar (c : Char) (cs : List Char) : takePieces (escapeChar c ++ cs) =
    (takePieces cs).map fun p => (writtenPiece c :: p.1, p.2) := by
  by_cases hescape : c ∈ ['"', '\\', '\x08', '\t', '\n', '\x0c', '\r']
  · simp only [List.mem_cons, List.not_mem_nil, or_false] at hescape
    rcases hescape with rfl | rfl | rfl | rfl | rfl | rfl | rfl <;>
      exact takePieces_escape (by decide) rfl cs
  · simp only [List.mem_cons, List.not_mem_nil, or_false, not_or] at hescape
    obtain ⟨hquote, hbackslash, hb, ht, hn, hf, hr⟩ := hescape
    by_cases hcontrol : c.toNat < 0x20
    · have hchars : escapeChar c =
          ['\\', 'u', '0', '0', hexDigit (c.toNat / 16), hexDigit (c.toNat % 16)] := by
        simp only [escapeChar, hquote, hbackslash, hb, ht, hn, hf, hr, hcontrol, if_true, if_false]
      have hpiece : writtenPiece c = .unit c.toNat := by
        simp [writtenPiece, hcontrol, hb, ht, hn, hf, hr]
      rw [hchars, hpiece]
      simp only [List.cons_append, List.nil_append]
      rw [takePieces, hexUnit?_control _ hcontrol]
      cases takePieces cs <;> rfl
    · have hchars : escapeChar c = [c] := by
        simp only [escapeChar, hquote, hbackslash, hb, ht, hn, hf, hr, hcontrol, if_false]
      have hpiece : writtenPiece c = .char c := by simp [writtenPiece, hcontrol]
      rw [hchars, hpiece, List.singleton_append, takePieces]
      · rw [if_neg (by simp [hbackslash, hcontrol])]
      · exact hquote
      · rintro a b c' d cs' rfl
        exact absurd rfl hbackslash
      · rintro c' cs' rfl
        exact absurd rfl hbackslash

theorem joinPieces_written (c : Char) (ps : List Piece) :
    joinPieces (writtenPiece c :: ps) = (joinPieces ps).map (c :: ·) := by
  rw [writtenPiece]
  split
  · rename_i hcontrol
    have hlow : isLowHalf c.toNat = false := by
      simp only [isLowHalf, Bool.and_eq_false_iff, decide_eq_false_iff_not]
      omega
    have hhigh : isHighHalf c.toNat = false := by
      simp only [isHighHalf, Bool.and_eq_false_iff, decide_eq_false_iff_not]
      omega
    rw [joinPieces.eq_def]
    simp only [hlow, hhigh, Bool.false_eq_true, if_false, Char.ofNat_toNat]
  · rfl

theorem takePieces_written (cs rest : List Char) :
    takePieces (cs.flatMap escapeChar ++ '"' :: rest) = some (cs.map writtenPiece, rest) := by
  induction cs with
  | nil => rfl
  | cons c cs ih =>
    rw [List.flatMap_cons, List.append_assoc, takePieces_escapeChar, ih, List.map_cons,
      Option.map_some]

theorem joinPieces_map_written (cs : List Char) : joinPieces (cs.map writtenPiece) = some cs := by
  induction cs with
  | nil => rfl
  | cons c cs ih => rw [List.map_cons, joinPieces_written, ih, Option.map_some]

/-- A written string is read up to its closing quote. -/
theorem takeString_written (s : String) (rest : List Char) :
    takeString (s.toList.flatMap escapeChar ++ '"' :: rest) = some (some s, rest) := by
  rw [takeString, takePieces_written, Option.map_some, joinPieces_map_written, Option.map_some,
    String.ofList_toList]

end SheetTemplate.Json
