-- How a minified script is laid out.

namespace ScriptMinifier

structure Style where
  /-- Lines are broken before they grow past this many characters. A line can still be longer
  where a break would change the program. -/
  maxLineLength : Nat := 1000
  /-- Each statement and each brace of a block is put on a line of its own. -/
  statementsOnOwnLine : Bool := false
deriving DecidableEq, Repr

namespace Style

/-- The settings of a run for which nothing is asked. -/
def usual : Style := {}

end Style

end ScriptMinifier
