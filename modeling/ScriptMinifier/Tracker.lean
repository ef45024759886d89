-- The tracker follows a program token by token and knows at which place of it the next
-- token stands. It keeps a stack of what is open.
import ScriptMinifier.Tracker.Rules

namespace ScriptMinifier

/-! ## What is open -/

/-- What a token has opened. -/
inductive Enclosure where
  /-- A block of statements or the body of a function. -/
  | block
  | object
  /-- Parentheses or brackets. -/
  | group
  /-- A conditional, from its question mark to its colon. -/
  | conditional
deriving DecidableEq, Repr

namespace Enclosure

/-- What a token opens when it leads to the given place. A brace opens an object literal if a key
comes next, and a block of statements otherwise. -/
def opened : TokenClass → (next : Place) → Enclosure
  | .braceOpen, .key => .object
  | .braceOpen, _ => .block
  | .question, _ => .conditional
  | _, _ => .group

end Enclosure

/-- Something that is open, with the place to return to once it is closed. -/
structure Frame where
  enclosure : Enclosure
  resume : Place
deriving DecidableEq, Repr

/-! ## The tracker -/

/-- A place in a program and what is open there, the innermost first. -/
structure Tracker where
  place : Place := .statement
  stack : List Frame := []
deriving DecidableEq, Repr

namespace Tracker

/-- No more than so many things are remembered as open, so that the memory in use is bounded. -/
def depthLimit : Nat := 1000

def start : Tracker := {}

def slash (tracker : Tracker) : Slash := tracker.place.slash

/-- Whether a line break before a token of this class has to be kept. -/
def breaksBefore (tracker : Tracker) (c : TokenClass) : Bool := tracker.place.breaksBefore c

/-- A line break has ended the statement. What is open stays open. -/
def endStatement (tracker : Tracker) : Tracker := { tracker with place := .statement }

/-- The stack with what the token opens, if it opens something and there is room. -/
def opened (tracker : Tracker) (c : TokenClass) : List Frame :=
  match tracker.place.resume? c with
  | some resume =>
    if tracker.stack.length < depthLimit then
      { enclosure := .opened c (tracker.place.next c), resume } :: tracker.stack
    else tracker.stack
  | none => tracker.stack

/-- The tracker behind one more token. A token that closes something leads back to where that
was opened. If nothing is open, it is read like any other token. -/
def advance (tracker : Tracker) (c : TokenClass) : Tracker :=
  match tracker.place.closes c, tracker.opened c with
  | true, frame :: stack => { place := frame.resume, stack }
  | _, stack => { place := tracker.place.next c, stack }

/-- The tracker behind a token that may stand on a new line. -/
def read (tracker : Tracker) (c : TokenClass) (followsBreak : Bool) : Tracker :=
  if followsBreak && tracker.breaksBefore c then tracker.endStatement.advance c
  else tracker.advance c

/-! ## One step -/

/-- A token that neither opens nor closes anything only moves the place. -/
theorem advance_of_inert {place : Place} {c : TokenClass} (stack : List Frame)
    (hr : place.resume? c = none) (hc : place.closes c = false) :
    advance ⟨place, stack⟩ c = ⟨place.next c, stack⟩ := by
  simp [advance, opened, hr, hc]

/-- A token that opens something remembers where to go on later. -/
theorem advance_of_opens {place resume : Place} {c : TokenClass} {stack : List Frame}
    (hr : place.resume? c = some resume) (hc : place.closes c = false)
    (hroom : stack.length < depthLimit) :
    advance ⟨place, stack⟩ c = ⟨place.next c, ⟨.opened c (place.next c), resume⟩ :: stack⟩ := by
  simp [advance, opened, hr, hc, hroom]

/-- A token that closes something goes back to where that was opened. -/
theorem advance_of_closes {place : Place} {c : TokenClass} (frame : Frame) (stack : List Frame)
    (hr : place.resume? c = none) (hc : place.closes c = true) :
    advance ⟨place, frame :: stack⟩ c = ⟨frame.resume, stack⟩ := by
  simp [advance, opened, hr, hc]

end Tracker

end ScriptMinifier
