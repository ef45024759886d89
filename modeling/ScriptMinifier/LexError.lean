-- Why a script cannot be read, and where. There are six causes, and each of them has
-- one wording.
import ScriptMinifier.Text.Position

namespace ScriptMinifier

namespace LexError

/-- What is wrong with a literal or a comment. -/
inductive Kind where
  /-- A number with too many dots, or with no digit where one has to stand. -/
  | malformedNumber
  /-- A block comment without its end. -/
  | openComment
  /-- A string that ends, with the script, right after a backslash. -/
  | openContinuation
  | openRegex
  | openString
  | openTemplate
deriving DecidableEq, Repr

namespace Kind

def label : Kind → String
  | malformedNumber => "MalformedNumericLiteral"
  | openComment => "UnterminatedComment"
  | openContinuation => "UnterminatedLineContinuation"
  | openRegex => "UnterminatedRegex"
  | openString => "UnterminatedString"
  | openTemplate => "UnterminatedTemplate"

def message : Kind → String
  | malformedNumber => "malformed numeric literal"
  | openComment => "unterminated block comment"
  | openContinuation => "backslash at end of input"
  | openRegex => "unterminated regular expression literal"
  | openString => "unterminated string literal"
  | openTemplate => "unterminated template literal"

end Kind

end LexError

/-- A script that cannot be read, with the start of the literal or comment at fault. -/
structure LexError where
  kind : LexError.Kind
  position : Position
deriving DecidableEq, Repr

namespace LexError

def message (error : LexError) : String := s!"{error.kind.message} at {error.position.display}"

/-- The short name and the place, for logs. -/
def summary (error : LexError) : String := s!"{error.kind.label} [{error.position.display}]"

/-- Two errors are of one sort when they have the same cause, wherever they are. -/
def sameKind (a b : LexError) : Bool := a.kind == b.kind

end LexError

end ScriptMinifier
