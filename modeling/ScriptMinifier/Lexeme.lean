-- Which lexeme a text starts with. What comes first in the text decides which scanner
-- reads it, and only two facts from outside take part: whether a slash is a division,
-- and whether a line starts here.
import ScriptMinifier.Lexeme.Number
import ScriptMinifier.Lexeme.Regex
import ScriptMinifier.Lexeme.Template
import ScriptMinifier.Lexeme.Word

namespace ScriptMinifier

/-- What a slash stands for when it starts no comment. -/
inductive Slash where
  | regex
  | division
deriving DecidableEq, Repr

namespace Lexeme

open Character

/-! ## Significant lexemes -/

/-- A lexeme that is neither a blank nor a comment. -/
def significant (slash : Slash) : Text → TokenKind × Scan
  | [] => (.endOfInput, { length := 0 })
  | c :: text =>
    if isQuote c then (.string, quoted (c :: text))
    else if c == '`' then (.template, template (c :: text))
    else if c == '/' && slash == .regex then (.regex, regex (c :: text))
    else
      match number? (c :: text) with
      | some scan => (.number, scan)
      | none => punctuatorOrWord (c :: text)

/-! ## Any lexeme -/

def startsBlockComment (text : Text) : Bool := ['/', '*'].isPrefixOf text

/-- A line comment starts with two slashes or with the mark that opens a comment in markup. The
mark that closes one counts only where no token stands before it on its line. -/
def startsLineComment (atLineStart : Bool) (text : Text) : Bool :=
  ['/', '/'].isPrefixOf text || ['<', '!', '-', '-'].isPrefixOf text ||
    (atLineStart && ['-', '-', '>'].isPrefixOf text)

/-- The lexeme at the start of a text, with its kind. -/
def scan (slash : Slash) (atLineStart : Bool) : Text → TokenKind × Scan
  | [] => (.endOfInput, { length := 0 })
  | c :: text =>
    if isBlank c then
      let run := blanks (c :: text)
      (if run.crossesLine then .lineBreak else .blank, run)
    else if startsBlockComment (c :: text) then (.blockComment, blockComment (c :: text))
    else if startsLineComment atLineStart (c :: text) then (.lineComment, lineComment (c :: text))
    else significant slash (c :: text)

/-! ## Every lexeme has a character -/

theorem length_significant_pos (slash : Slash) (c : Char) (text : Text) :
    0 < (significant slash (c :: text)).2.length := by
  rw [significant]
  split
  · exact le_length_quotedFrom _ _ _
  split
  · exact le_length_templateFrom _ _ _ _
  split
  · exact le_length_regexFrom _ _ _
  split
  · next h => exact length_number?_pos h
  · exact length_punctuatorOrWord_pos _

theorem length_scan_pos (slash : Slash) (atLineStart : Bool) (c : Char) (text : Text) :
    0 < (scan slash atLineStart (c :: text)).2.length := by
  rw [scan]
  split
  · next h => simp [blanks, h]
  next hb =>
  have hl : isLineTerminator c = false := by
    cases hl : isLineTerminator c
    · rfl
    · exact absurd (isBlank_of_isLineTerminator hl) hb
  split
  · exact length_blockComment_pos _
  split
  · simp [lineComment, hl]
  · exact length_significant_pos _ _ _

end Lexeme

end ScriptMinifier
