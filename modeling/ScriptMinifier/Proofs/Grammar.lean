-- A grammar of programs. It says of each token whether a complete expression ends right
-- before it, since that is where a slash divides. It covers the core of the language:
-- expressions with their groups, object literals, functions, arrows and conditionals, and
-- the statements that function bodies are made of.
import ScriptMinifier.Tracker

namespace ScriptMinifier

/-! ## Readings -/

/-- A token as the grammar sees it: its class, and what a slash in its place would stand for. -/
structure Reading where
  tokenClass : TokenClass
  slash : Slash
deriving DecidableEq, Repr

namespace Reading

/-- A token with no complete expression right before it. -/
def fresh (c : TokenClass) : Reading := ⟨c, .regex⟩

/-- A token right behind a complete expression. -/
def behind (c : TokenClass) : Reading := ⟨c, .division⟩

end Reading

open Reading

/-! ## The grammar -/

/-- The sorts of phrases. -/
inductive Category where
  | expression (scope : Scope)
  /-- What can stand before an arrow. -/
  | arrowHead (scope : Scope)
  /-- What follows the opening parenthesis of a group, its closing one included. Several
  expressions in a group are one expression with commas. -/
  | arguments
  /-- What follows the opening parenthesis of a clause, its closing one included. -/
  | clauseHead
  /-- The names between the parentheses of a `function`. -/
  | parameters
  /-- What stands before the colon of a property. -/
  | key
  /-- What follows the opening brace of an object literal, its closing one included. -/
  | members
  /-- What follows a member of an object literal. The member has ended where a slash is read
  like this. -/
  | membersAfter (slash : Slash)
  | statement
  /-- Any number of statements. -/
  | program
  /-- What follows the opening brace of a block, its closing one included. -/
  | body
deriving DecidableEq, Repr

/-- The classes that may stand before an operand. -/
def isPrefixClass (c : TokenClass) : Bool := [.unary, .increment, .additive].contains c

/-- The classes that may stand between two operands. -/
def isInfixClass (c : TokenClass) : Bool := [.binary, .additive].contains c

/-- Whether a phrase starts with a token of this class. -/
def startsWith (c : TokenClass) (phrase : List Reading) : Bool :=
  phrase.head?.any (·.tokenClass == c)

/-- A statement that starts with a brace is a block, and one that starts with `function` is a
declaration, so an expression may start a statement only if it does neither. -/
def startsStatement (phrase : List Reading) : Bool :=
  !startsWith .braceOpen phrase && !startsWith .function phrase

/-- `Phrase room category phrase` holds if the phrase is of the category and keeps at most `room`
things open at once. Parentheses, brackets, braces and the first half of a conditional each
take one place, and the parentheses of a `function` take none. -/
inductive Phrase : Nat → Category → List Reading → Prop
  -- Expressions
  | literal {n k} : Phrase n (.expression k) [fresh .literal]
  | prefixed {n k c e} : isPrefixClass c → Phrase n (.expression k) e →
      Phrase n (.expression k) (fresh c :: e)
  | postfixed {n k e} : Phrase n (.expression k) e →
      Phrase n (.expression k) (e ++ [behind .increment])
  | infixed {n k c a b} : isInfixClass c → Phrase n (.expression k) a →
      Phrase n (.expression k) b → Phrase n (.expression k) (a ++ behind c :: b)
  | sequence {n k a b} : k ≠ .property → Phrase n (.expression k) a →
      Phrase n (.expression k) b → Phrase n (.expression k) (a ++ behind .comma :: b)
  | group {n k a} : Phrase n .arguments a → Phrase (n + 1) (.expression k) (fresh .parenOpen :: a)
  | call {n k e a} : Phrase (n + 1) (.expression k) e → Phrase n .arguments a →
      Phrase (n + 1) (.expression k) (e ++ behind .parenOpen :: a)
  | object {n k m} : Phrase n .members m → Phrase (n + 1) (.expression k) (fresh .braceOpen :: m)
  | function {n k p b} : Phrase n .parameters p → Phrase n .body b →
      Phrase (n + 1) (.expression k) (fresh .function :: fresh .parenOpen ::
        (p ++ fresh .parenClose :: fresh .braceOpen :: b))
  | namedFunction {n k p b} : Phrase n .parameters p → Phrase n .body b →
      Phrase (n + 1) (.expression k) (fresh .function :: fresh .literal :: fresh .parenOpen ::
        (p ++ fresh .parenClose :: fresh .braceOpen :: b))
  | arrow {n k h e} : Phrase n (.arrowHead k) h → Phrase n (.expression k) e →
      startsWith .braceOpen e = false → Phrase n (.expression k) (h ++ behind .arrow :: e)
  | arrowBody {n k h b} : Phrase (n + 1) (.arrowHead k) h → Phrase n .body b →
      Phrase (n + 1) (.expression k) (h ++ behind .arrow :: fresh .braceOpen :: b)
  -- The value of a property has no conditional: the tracker does not know its colon.
  | conditional {n k c a b} : k = .plain ∨ k = .conditional → Phrase (n + 1) (.expression k) c →
      Phrase n (.expression .conditional) a → Phrase (n + 1) (.expression k) b →
      Phrase (n + 1) (.expression k) (c ++ behind .question :: (a ++ behind .colon :: b))
  | groupConditional {n c a b} : Phrase n (.expression .group) c →
      Phrase n (.expression .group) a → Phrase n (.expression .group) b →
      Phrase n (.expression .group) (c ++ behind .question :: (a ++ behind .colon :: b))
  -- Parts of expressions
  | literalHead {n k} : Phrase n (.arrowHead k) [fresh .literal]
  | groupHead {n k a} : Phrase n .arguments a →
      Phrase (n + 1) (.arrowHead k) (fresh .parenOpen :: a)
  | noArguments {n} : Phrase n .arguments [fresh .parenClose]
  | arguments {n e} : Phrase n (.expression .group) e →
      Phrase n .arguments (e ++ [behind .parenClose])
  | noParameters {n} : Phrase n .parameters []
  | lastParameter {n} : Phrase n .parameters [fresh .literal]
  | parameter {n p} : Phrase n .parameters p →
      Phrase n .parameters (fresh .literal :: fresh .comma :: p)
  -- Object literals
  | nameKey {n} : Phrase n .key [fresh .literal]
  | computedKey {n e} : Phrase n (.expression .group) e →
      Phrase (n + 1) .key (fresh .parenOpen :: (e ++ [behind .parenClose]))
  | noMembers {n} : Phrase n .members [fresh .braceClose]
  | property {n k e m} : Phrase n .key k → Phrase n (.expression .property) e →
      Phrase n (.membersAfter .division) m →
      Phrase n .members (k ++ fresh .colon :: (e ++ m))
  | method {n a b m} : Phrase n .arguments a → Phrase n .body b →
      Phrase (n + 1) (.membersAfter .regex) m →
      Phrase (n + 1) .members (fresh .literal :: fresh .parenOpen ::
        (a ++ fresh .braceOpen :: (b ++ m)))
  | endOfMembers {n s} : Phrase n (.membersAfter s) [⟨.braceClose, s⟩]
  | nextMember {n s m} : Phrase n .members m → Phrase n (.membersAfter s) (⟨.comma, s⟩ :: m)
  -- Statements
  | emptyStatement {n} : Phrase n .statement [fresh .semicolon]
  | expressionStatement {n e} : Phrase n (.expression .plain) e → startsStatement e →
      Phrase n .statement (e ++ [behind .semicolon])
  | labelled {n e s} : Phrase n (.expression .plain) e → startsStatement e →
      Phrase n .statement s → Phrase n .statement (e ++ behind .colon :: s)
  | block {n b} : Phrase n .body b → Phrase (n + 1) .statement (fresh .braceOpen :: b)
  | clause {n h s} : Phrase n .clauseHead h → Phrase (n + 1) .statement s →
      Phrase (n + 1) .statement (fresh .clause :: fresh .parenOpen :: (h ++ s))
  | opener {n s} : Phrase n .statement s → Phrase n .statement (fresh .opener :: s)
  | jump {n} : Phrase n .statement [fresh .jump, fresh .semicolon]
  | jumpWith {n e} : Phrase n (.expression .plain) e →
      Phrase n .statement (fresh .jump :: (e ++ [behind .semicolon]))
  | declaration {n a b} : Phrase n .arguments a → Phrase n .body b →
      Phrase (n + 1) .statement (fresh .function :: fresh .literal :: fresh .parenOpen ::
        (a ++ fresh .braceOpen :: b))
  | plainHead {n a} : Phrase n .arguments a → Phrase n .clauseHead a
  | skippedPart {n h} : Phrase n .clauseHead h → Phrase n .clauseHead (fresh .semicolon :: h)
  | headPart {n e h} : Phrase n (.expression .group) e → Phrase n .clauseHead h →
      Phrase n .clauseHead (e ++ behind .semicolon :: h)
  | noStatements {n} : Phrase n .program []
  | nextStatement {n s p} : Phrase n .statement s → Phrase n .program p →
      Phrase n .program (s ++ p)
  -- The last semicolon of a block may be left out.
  | closedBody {n p} : Phrase n .program p → Phrase n .body (p ++ [fresh .braceClose])
  | openBody {n p e} : Phrase n .program p → Phrase n (.expression .plain) e →
      startsStatement e → Phrase n .body (p ++ (e ++ [behind .braceClose]))
  | jumpBody {n p} : Phrase n .program p →
      Phrase n .body (p ++ [fresh .jump, fresh .braceClose])
  | jumpWithBody {n p e} : Phrase n .program p → Phrase n (.expression .plain) e →
      Phrase n .body (p ++ (fresh .jump :: (e ++ [behind .braceClose])))

/-! ## Regular expressions and divisions -/

/-- A regular expression is a literal and a division is a binary operator, and the grammar has
each of them only where a slash is read like that. -/
theorem Phrase.slash_of_mem {room : Nat} {category : Category} {phrase : List Reading}
    (h : Phrase room category phrase) :
    ∀ reading ∈ phrase, (reading.tokenClass = .literal → reading.slash = .regex) ∧
      (reading.tokenClass = .binary → reading.slash = .division) := by
  induction h with
  | prefixed hc _ ih =>
    have : isPrefixClass .binary = false := rfl
    simp only [List.forall_mem_cons]
    refine ⟨⟨fun _ => rfl, ?_⟩, ih⟩
    rintro rfl
    simp [this] at hc
  | infixed hc _ _ iha ihb =>
    have : isInfixClass .literal = false := rfl
    simp only [List.forall_mem_append, List.forall_mem_cons]
    refine ⟨iha, ⟨?_, fun _ => rfl⟩, ihb⟩
    rintro rfl
    simp [this] at hc
  | _ => simp_all [fresh, behind, or_imp, forall_and]

end ScriptMinifier
