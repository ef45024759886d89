-- Where an offset stands on the lines of a script. A carriage return, a line feed
-- and the pair of both each end one line.
import ScriptMinifier.Text.Character

namespace ScriptMinifier

/-- A place in a script. All three numbers start at zero. The offset counts bytes and the
column counts characters since the start of the line. -/
structure Position where
  offset : Nat
  line : Nat
  column : Nat
deriving DecidableEq, Repr

/-! ## Counting lines -/

/-- The line and column that a walk over a text has come to. It remembers a carriage return,
so that a line feed right after it does not end a second line. -/
structure Cursor where
  line : Nat := 0
  column : Nat := 0
  afterReturn : Bool := false
deriving DecidableEq, Repr

namespace Cursor

def step (cursor : Cursor) (c : Char) : Cursor :=
  if c == '\r' then { line := cursor.line + 1, column := 0, afterReturn := true }
  else if c == '\n' then
    { line := if cursor.afterReturn then cursor.line else cursor.line + 1, column := 0 }
  else { line := cursor.line, column := cursor.column + 1 }

/-- Where a walk over the whole text ends. -/
def afterText (text : Text) : Cursor := text.foldl step {}

theorem afterText_append_singleton (text : Text) (c : Char) :
    afterText (text ++ [c]) = (afterText text).step c := by
  simp [afterText]

end Cursor

namespace Position

/-- The place of a byte offset, found by a walk over everything before it. -/
def resolve (source : Text) (offset : Nat) : Position :=
  let cursor := Cursor.afterText (Text.takeBytes offset source)
  { offset, line := cursor.line, column := cursor.column }

/-- Line and column as people count them, from one, and then the offset. -/
def display (p : Position) : String := s!"{p.line + 1}:{p.column + 1} [{p.offset}]"

end Position

end ScriptMinifier
