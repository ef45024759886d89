-- String literals, in single or in double quotes.
import ScriptMinifier.Lexeme.Scan
import ScriptMinifier.Text.Character

namespace ScriptMinifier.Lexeme

open Character

def isQuote (c : Char) : Bool := c == '\'' || c == '"'

/-- The string from its first `read` characters on, up to the next quote of its sort. A
backslash takes the next character with it, and a carriage return together with its line feed.
A bare line terminator is read and ends the scan. -/
def quotedFrom (quote : Char) : (read : Nat) → Text → Scan
  | read, [] => .fail .openString read
  | read, ['\\'] => .fail .openContinuation (read + 1)
  | read, '\\' :: '\r' :: '\n' :: text => quotedFrom quote (read + 3) text
  | read, '\\' :: _ :: text => quotedFrom quote (read + 2) text
  | read, c :: text =>
    if c == quote then { length := read + 1 }
    else if isLineTerminator c then .fail .openString (read + 1)
    else quotedFrom quote (read + 1) text

/-- A string literal, from its opening quote. -/
def quoted : Text → Scan
  | [] => { length := 0 }
  | quote :: text => quotedFrom quote 1 text

theorem le_length_quotedFrom (quote : Char) (read : Nat) (text : Text) :
    read ≤ (quotedFrom quote read text).length := by
  fun_induction quotedFrom quote read text <;> grind [Scan.length_fail]

end ScriptMinifier.Lexeme
