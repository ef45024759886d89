-- The role of a token in the grammar, which is told by its spelling alone. The tables
-- hold every punctuator and every word that is more than an operand.
import ScriptMinifier.Text

namespace ScriptMinifier

/-- What a token does in a program. Whatever is in no table is an operand, a `literal`. -/
inductive TokenClass where
  /-- An operator that stands before its operand only: `!`, `typeof` and their kind. -/
  | unary
  /-- `++` and `--`, which stand before an operand or after one. -/
  | increment
  /-- An operator between two operands. -/
  | binary
  /-- `+` and `-`, which are unary or binary. -/
  | additive
  /-- `?`, the start of a conditional. -/
  | question
  /-- `=>`. A brace after it opens a function body. -/
  | arrow
  | colon
  | comma
  | semicolon
  | braceOpen
  | braceClose
  /-- `(` and `[`. -/
  | parenOpen
  /-- `)` and `]`. -/
  | parenClose
  /-- A word that leaves the current statement: `break`, `continue`, `return`, `throw`. -/
  | jump
  /-- A word with a head in parentheses: `if`, `for` and their kind. -/
  | clause
  /-- A word that a statement follows: `do`, `else` and their kind. -/
  | opener
  | function
  | literal
deriving DecidableEq, Repr

namespace TokenClass

/-- Every class, in the order of the tables that list them. -/
def all : List TokenClass :=
  [unary, increment, binary, additive, question, arrow, colon, comma, semicolon, braceOpen,
    braceClose, parenOpen, parenClose, jump, clause, opener, function, literal]

theorem mem_all (c : TokenClass) : c ∈ all := by
  cases c <;> decide

end TokenClass

/-! ## Punctuators -/

/-- The punctuators with their classes, in the order of their characters. -/
def punctuatorTable : List (String × TokenClass) :=
  [("!", .unary), ("!=", .binary), ("!==", .binary),
    ("%", .binary), ("%=", .binary),
    ("&", .binary), ("&&", .binary), ("&&=", .binary), ("&=", .binary),
    ("(", .parenOpen), (")", .parenClose),
    ("*", .binary), ("**", .binary), ("**=", .binary), ("*=", .binary),
    ("+", .additive), ("++", .increment), ("+=", .binary),
    (",", .comma),
    ("-", .additive), ("--", .increment), ("-=", .binary),
    (".", .binary), ("...", .binary),
    ("/", .binary), ("/=", .binary),
    (":", .colon), (";", .semicolon),
    ("<", .binary), ("<<", .binary), ("<<=", .binary), ("<=", .binary),
    ("=", .binary), ("==", .binary), ("===", .binary), ("=>", .arrow),
    (">", .binary), (">=", .binary), (">>", .binary), (">>=", .binary), (">>>", .binary),
    (">>>=", .binary),
    ("?", .question), ("?.", .binary), ("??", .binary), ("??=", .binary),
    ("[", .parenOpen), ("]", .parenClose),
    ("^", .binary), ("^=", .binary),
    ("\x7b", .braceOpen),
    ("|", .binary), ("|=", .binary), ("||", .binary), ("||=", .binary),
    ("\x7d", .braceClose),
    ("~", .unary)]

def punctuators : List Text := punctuatorTable.map fun row => row.1.toList

/-! ## Words -/

/-- The words that are more than operands, with their classes. -/
def wordTable : List (String × TokenClass) :=
  [("delete", .unary), ("new", .unary), ("typeof", .unary), ("void", .unary),
    ("in", .binary), ("instanceof", .binary),
    ("break", .jump), ("continue", .jump), ("return", .jump), ("throw", .jump),
    ("catch", .clause), ("for", .clause), ("if", .clause), ("switch", .clause),
    ("while", .clause), ("with", .clause),
    ("case", .opener), ("do", .opener), ("else", .opener), ("finally", .opener),
    ("try", .opener), ("var", .opener),
    ("function", .function)]

def keywords : List Text :=
  ["await", "break", "case", "catch", "class", "const", "continue", "debugger", "default",
    "delete", "do", "else", "enum", "export", "extends", "finally", "for", "function", "if",
    "import", "in", "instanceof", "let", "new", "return", "static", "super", "switch", "this",
    "throw", "try", "typeof", "var", "void", "while", "with", "yield"].map String.toList

/-! ## From spelling to class -/

namespace TokenClass

/-- Every spelling that has a class of its own. -/
def table : List (Text × TokenClass) :=
  (punctuatorTable ++ wordTable).map fun row => (row.1.toList, row.2)

def ofText (text : Text) : TokenClass := (table.lookup text).getD .literal

end TokenClass

end ScriptMinifier
