-- A span is a part of a script that remembers the script it was cut from, so that it
-- can say where it stands.
import ScriptMinifier.Text.Position

namespace ScriptMinifier

/-- The part of `source` between two byte offsets. -/
structure Span where
  source : Text
  start : Nat
  stop : Nat
deriving DecidableEq, Repr

namespace Span

/-- A span that starts at the end of the script, or after it. -/
def isAtEnd (span : Span) : Bool := Text.byteSize span.source ≤ span.start

def text (span : Span) : Text := Text.slice span.source span.start span.stop

def hasLineTerminator (span : Span) : Bool := span.text.any Character.isLineTerminator

def position (span : Span) : Position := Position.resolve span.source span.start

/-- The text in backticks and its two offsets. A span at the end of the script shows nothing. -/
def describe (span : Span) : String :=
  if span.isAtEnd then ""
  else s!"`{String.ofList span.text}`[{span.start}:{span.stop}]"

/-- Two spans agree when both show the same text, wherever it stands. A span at the end agrees
with every other span at the end of its own script. -/
def agrees (a b : Span) : Bool :=
  if a.isAtEnd then b.isAtEnd else a.text == b.text

end Span

end ScriptMinifier
