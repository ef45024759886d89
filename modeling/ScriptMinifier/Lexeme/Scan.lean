-- What a scanner finds out about the text in front of it. A scanner only counts
-- characters: the lexeme is what it counted, and the rest is what comes after.
import ScriptMinifier.LexError

namespace ScriptMinifier

/-- A literal or comment that cannot be read. -/
structure Fault where
  kind : LexError.Kind
  /-- How many characters lie between the start of the scan and the literal at fault. It is
  zero unless the fault is in something nested. -/
  start : Nat := 0
deriving DecidableEq, Repr

/-- The end of a scan. -/
structure Scan where
  /-- How many characters were read, with or without a fault. -/
  length : Nat
  fault : Option Fault := none
  /-- A line terminator was passed between tokens, or in a comment that stands between tokens
  of a nested script. -/
  crossesLine : Bool := false
deriving DecidableEq, Repr

namespace Scan

/-- A scan that fails where it started, with so many characters read. -/
def fail (kind : LexError.Kind) (length : Nat) : Scan := { length, fault := some { kind } }

/-- The scan is part of a larger one that began `read` characters earlier. -/
def within (read : Nat) (scan : Scan) : Scan :=
  { scan with
    length := read + scan.length
    fault := scan.fault.map fun f => { f with start := read + f.start } }

def lexeme (scan : Scan) (text : Text) : Text := text.take scan.length

def rest (scan : Scan) (text : Text) : Text := text.drop scan.length

theorem lexeme_append_rest (scan : Scan) (text : Text) :
    scan.lexeme text ++ scan.rest text = text :=
  List.take_append_drop _ _

@[simp]
theorem length_fail (kind : LexError.Kind) (length : Nat) : (fail kind length).length = length :=
  rfl

@[simp]
theorem length_within (read : Nat) (scan : Scan) :
    (scan.within read).length = read + scan.length :=
  rfl

end Scan

end ScriptMinifier
