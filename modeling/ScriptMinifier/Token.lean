-- Tokens: what the lexer cuts a script into. Blanks and comments are tokens too, so
-- that the tokens of a script spell it out without a gap.
import ScriptMinifier.Text.Span
import ScriptMinifier.Token.Class

namespace ScriptMinifier

inductive TokenKind where
  | blockComment
  | lineComment
  | endOfInput
  /-- A word that is not reserved. The names `true`, `false` and `null` count as such. -/
  | identifier
  | keyword
  /-- A run of blanks with a line terminator in it. -/
  | lineBreak
  | number
  | regex
  | string
  | template
  | punctuator
  /-- A run of blanks on one line. -/
  | blank
deriving DecidableEq, Repr

namespace TokenKind

def isComment : TokenKind → Bool
  | blockComment | lineComment => true
  | _ => false

/-- Comments and blanks mean nothing, and neither does the end. -/
def isSignificant : TokenKind → Bool
  | blockComment | lineComment | blank | lineBreak | endOfInput => false
  | _ => true

def isWord : TokenKind → Bool
  | identifier | keyword => true
  | _ => false

end TokenKind

structure Token where
  kind : TokenKind
  text : Text
  /-- The byte offset where the token starts. -/
  start : Nat
  /-- A line terminator stands between the last significant token and this one. Blanks and
  comments never carry this mark. -/
  followsBreak : Bool
deriving DecidableEq, Repr

namespace Token

def isSignificant (token : Token) : Bool := token.kind.isSignificant

def stop (token : Token) : Nat := token.start + Text.byteSize token.text

/-- The token as a part of the script it was read from. -/
def span (source : Text) (token : Token) : Span :=
  { source, start := token.start, stop := token.stop }

/-- The class that the spelling tells. -/
def classOf (token : Token) : TokenClass := TokenClass.ofText token.text

/-- A dot or a `?.` asks for the name of a member. -/
def asksForMember (token : Token) : Bool := token.text == ['.'] || token.text == ['?', '.']

/-- The class of a token after another one. A word that names a member is an operand, even if
it spells a keyword. -/
def classAfter (token : Token) (previous : Option Token) : TokenClass :=
  if token.kind.isWord && previous.any asksForMember then .literal else token.classOf

end Token

end ScriptMinifier
