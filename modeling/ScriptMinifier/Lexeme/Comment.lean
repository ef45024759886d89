-- Blanks and comments, the text between tokens.
import ScriptMinifier.Lexeme.Scan
import ScriptMinifier.Text.Character

namespace ScriptMinifier.Lexeme

open Character

/-! ## Blanks -/

def blanks (text : Text) : Scan :=
  let run := text.takeWhile isBlank
  { length := run.length, crossesLine := run.any isLineTerminator }

/-! ## Block comments -/

/-- How many characters have been read after the first `*/`, when `read` came before. -/
def commentEnd? : (read : Nat) → Text → Option Nat
  | _, [] => none
  | read, '*' :: '/' :: _ => some (read + 2)
  | read, _ :: text => commentEnd? (read + 1) text

/-- A block comment, from its `/*` to the first `*/` after that. Without an end, only the two
characters of its start are read. -/
def blockComment (text : Text) : Scan :=
  match commentEnd? 2 (text.drop 2) with
  | some length => { length, crossesLine := (text.take length).any isLineTerminator }
  | none => .fail .openComment 2

theorem lt_commentEnd? {read n : Nat} {text : Text} (h : commentEnd? read text = some n) :
    read < n := by
  fun_induction commentEnd? read text with
  | case1 => simp at h
  | case2 => simp at h; omega
  | case3 _ _ _ _ ih => have := ih h; omega

theorem length_blockComment_pos (text : Text) : 0 < (blockComment text).length := by
  rw [blockComment]
  split
  · next h => exact Nat.lt_of_le_of_lt (Nat.zero_le _) (lt_commentEnd? h)
  · simp

/-! ## Line comments -/

/-- A line comment goes on up to the end of its line. -/
def lineComment (text : Text) : Scan :=
  { length := (text.takeWhile fun c => !isLineTerminator c).length }

end ScriptMinifier.Lexeme
