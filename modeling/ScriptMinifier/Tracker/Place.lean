-- Places in a program: how much of the grammar one has to know in order to tell a
-- regular expression from a division, and a line break that ends a statement from one
-- that does not.
import ScriptMinifier.Lexeme

namespace ScriptMinifier

/-- What an expression is part of. -/
inductive Scope where
  /-- A statement. -/
  | plain
  /-- A conditional, between its question mark and its colon. -/
  | conditional
  /-- Parentheses or brackets. -/
  | group
  /-- The value of a property in an object literal. -/
  | property
deriving DecidableEq, Repr

/-- How far an expression has come. -/
inductive Phase where
  /-- It waits for an operand. -/
  | operand
  /-- An operand has been read, so an operator is next. -/
  | operator
  /-- The word `function` has been read, and its body is to come. -/
  | function
  /-- An arrow has been read. A brace would open a function body. -/
  | arrow
deriving DecidableEq, Repr

inductive Place where
  /-- At the start of a statement. -/
  | statement
  /-- After `if`, `function` and their kind, before the parentheses. -/
  | header
  /-- In an object literal, before the colon of a property. -/
  | key
  /-- After `return` and its kind, where a line break ends the statement. -/
  | restricted
  | expression (scope : Scope) (phase : Phase)
deriving DecidableEq, Repr

namespace Place

/-- After an operand a slash divides. -/
def isDivision : Place → Bool
  | expression _ .operator => true
  | _ => false

def slash (place : Place) : Slash := if place.isDivision then .division else .regex

end Place

end ScriptMinifier
