-- Regular expression literals.
import ScriptMinifier.Lexeme.Scan
import ScriptMinifier.Text.Character

namespace ScriptMinifier.Lexeme

open Character

/-- Whether the characters after `c` stand in a character class. -/
def inClassAfter (inClass : Bool) (c : Char) : Bool :=
  if c == '[' then true else if c == ']' then false else inClass

/-- The expression from its first `read` characters on. A slash ends it, unless it stands in a
character class, and then the flags follow. A line terminator is read and ends the scan, also
after a backslash. -/
def regexFrom : (inClass : Bool) → (read : Nat) → Text → Scan
  | _, read, [] => .fail .openRegex read
  | _, read, ['\\'] => .fail .openRegex (read + 1)
  | inClass, read, '\\' :: c :: text =>
    if isLineTerminator c then .fail .openRegex (read + 2) else regexFrom inClass (read + 2) text
  | inClass, read, c :: text =>
    if c == '/' && !inClass then { length := read + 1 + (text.takeWhile isRegexFlag).length }
    else if isLineTerminator c then .fail .openRegex (read + 1)
    else regexFrom (inClassAfter inClass c) (read + 1) text

/-- A regular expression literal, from its opening slash. -/
def regex (text : Text) : Scan := regexFrom false 1 (text.drop 1)

theorem le_length_regexFrom (inClass : Bool) (read : Nat) (text : Text) :
    read ≤ (regexFrom inClass read text).length := by
  fun_induction regexFrom inClass read text <;> grind [Scan.length_fail]

end ScriptMinifier.Lexeme
