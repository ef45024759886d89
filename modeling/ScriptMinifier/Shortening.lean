-- The names `true` and `false` have shorter spellings with a `!`, which can be used where
-- a value is sure to stand and where nothing that follows binds tighter than the `!`.
import ScriptMinifier.Tracker

namespace ScriptMinifier

/-- The short spelling of a token, if it has one at this place. A member name after a dot keeps
its spelling. -/
def shortened? (text : Text) (c : TokenClass) (place : Place) (last : Char) : Option Text :=
  if c = .literal ∧ last ≠ '.' ∧
      (place = .expression .plain .operand ∨ place = .expression .property .operand) then
    if text = "true".toList then some "!0".toList
    else if text = "false".toList then some "!1".toList
    else none
  else none

/-- Whether a token after an operand would take the operand away from a `!` in front of it. -/
def bindsTighter (text : Text) : Bool :=
  [".", "?.", "[", "(", "**"].any (·.toList == text) || text.head? == some '`'

end ScriptMinifier
