-- The rules by which a token leads from one place of a program to another. Each rule
-- looks at the place and the class of the token only.
import ScriptMinifier.Tracker.Place

namespace ScriptMinifier.Place

/-! ## Where a token leads -/

/-- From an expression that waits for an operand. -/
def fromOperand? (scope : Scope) : TokenClass → Option Place
  | .semicolon => if scope = .plain then some .statement else none
  | .braceOpen => some .key
  | .parenOpen => if scope = .group then none else some (.expression .group .operand)
  | .function => some (.expression scope .function)
  | .literal => some (.expression scope .operator)
  | _ => none

/-- From an expression that has an operand. -/
def fromOperator? (scope : Scope) : TokenClass → Option Place
  | .binary | .additive => some (.expression scope .operand)
  | .question => some (.expression (if scope = .plain then .conditional else scope) .operand)
  | .colon | .semicolon =>
    match scope with
    | .plain => some .statement
    | .group => some (.expression .group .operand)
    | .conditional | .property => none
  | .comma => if scope = .property then some .key else some (.expression scope .operand)
  | .parenOpen => some (.expression .group .operand)
  | .arrow => some (.expression scope .arrow)
  | _ => none

/-- From an arrow. A brace opens a function body, and everything else is read as if the
expression waited for an operand. -/
def fromArrow (scope : Scope) : TokenClass → Place
  | .braceOpen => .statement
  | c => (fromOperand? scope c).getD (.expression scope .operand)

/-- The place that a token leads to. A token without a rule stays where it is. -/
def next? : Place → TokenClass → Option Place
  | .statement, .unary | .statement, .increment | .statement, .additive =>
    some (.expression .plain .operand)
  | .statement, .parenOpen => some (.expression .group .operand)
  | .statement, .jump => some .restricted
  | .statement, .clause | .statement, .function => some .header
  | .statement, .literal => some (.expression .plain .operator)
  | .header, .parenOpen => some (.expression .group .operand)
  | .key, .colon => some (.expression .property .operand)
  | .key, .braceOpen => some .statement
  | .key, .parenOpen => some (.expression .group .operand)
  | .restricted, c => fromOperand? .plain c
  | .expression scope .operand, c => fromOperand? scope c
  | .expression scope .operator, c => fromOperator? scope c
  | .expression _ .function, .braceOpen => some .statement
  | .expression scope .arrow, c => some (fromArrow scope c)
  | _, _ => none

/-- The place that a token leads to, or the same place. -/
def next (place : Place) (c : TokenClass) : Place := (place.next? c).getD place

/-! ## Opening and closing -/

/-- The place to return to when what the token opens is closed again. Only a token that opens
something has one. -/
def resume? : Place → TokenClass → Option Place
  | .statement, .braceOpen => some .statement
  | .statement, .parenOpen => some (.expression .plain .operator)
  | .header, .parenOpen => some .statement
  | .key, .braceOpen | .key, .parenOpen => some .key
  | .restricted, .braceOpen | .restricted, .parenOpen => some (.expression .plain .operator)
  | .expression scope .operand, .braceOpen | .expression scope .operand, .parenOpen =>
    some (.expression scope .operator)
  | .expression scope .operator, .parenOpen => some (.expression scope .operator)
  | .expression .plain .operator, .question => some (.expression .plain .operand)
  | .expression .conditional .operator, .question => some (.expression .conditional .operand)
  | .expression scope .function, .braceOpen => some (.expression scope .operator)
  | .expression scope .arrow, .braceOpen | .expression scope .arrow, .parenOpen =>
    some (.expression scope .operator)
  | _, _ => none

/-- Whether the token closes what was opened last. -/
def closes : Place → TokenClass → Bool
  | .statement, .braceClose | .key, .braceClose | .restricted, .braceClose => true
  | .expression .plain phase, .braceClose | .expression .property phase, .braceClose =>
    phase != .function
  | .expression .conditional .operator, .colon => true
  | .expression .group phase, .parenClose => phase != .function
  | _, _ => false

/-! ## Line breaks -/

/-- Whether the token starts a new statement when it stands on a new line. Such a line break is
part of the program, since a semicolon is understood there. -/
def breaksBefore : Place → TokenClass → Bool
  | .restricted, c =>
    [.unary, .increment, .additive, .braceOpen, .parenOpen, .jump, .clause, .opener, .function,
      .literal].contains c
  | .expression .plain .operator, c =>
    [.unary, .increment, .braceOpen, .jump, .clause, .opener, .function, .literal].contains c
  | _, _ => false

/-- Whether the token, read at this place, ends a line of its own. -/
def endsLineFrom : Place → TokenClass → Bool
  | .statement, .braceClose => true
  | _, _ => false

/-- Whether the token, which has led to this place, ends a line of its own. -/
def endsLineAt : Place → TokenClass → Bool
  | .statement, .braceOpen | .statement, .parenClose | .statement, .semicolon => true
  | _, _ => false

end ScriptMinifier.Place
