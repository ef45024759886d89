-- The classes of characters that the scanners and the page know. Every class is a
-- set of ASCII characters: a character outside ASCII is a word character.
import ScriptMinifier.Text

namespace ScriptMinifier.Character

/-! ## Blanks -/

/-- A carriage return or a line feed ends a line, and nothing else does. -/
def isLineTerminator (c : Char) : Bool := c == '\n' || c == '\r'

/-- Tab, line feed, vertical tab, form feed, carriage return and space. -/
def isBlank (c : Char) : Bool := ['\t', '\n', '\x0b', '\x0c', '\r', ' '].contains c

/-! ## Digits and letters -/

def isDigit (c : Char) : Bool := '0' ≤ c && c ≤ '9'

def isBinaryDigit (c : Char) : Bool := c == '0' || c == '1'

def isOctalDigit (c : Char) : Bool := '0' ≤ c && c ≤ '7'

def isHexDigit (c : Char) : Bool :=
  isDigit c || ('a' ≤ c && c ≤ 'f') || ('A' ≤ c && c ≤ 'F')

/-- The letters that may follow a regular expression as flags. -/
def isRegexFlag (c : Char) : Bool := ('a' ≤ c && c ≤ 'z') || ('A' ≤ c && c ≤ 'Z')

/-! ## Operators and words -/

/-- The characters that can stand next to any word without joining it. The quotes and the
backtick are among them, since they always begin or end a literal. -/
def operators : List Char := "!\"%&'()*+,-./:;<=>?[]^\x7b|\x7d~`".toList

def isOperator (c : Char) : Bool := operators.contains c

/-- A word goes on up to the next blank or operator. -/
def isWordBreak (c : Char) : Bool := isBlank c || isOperator c

theorem isBlank_of_isLineTerminator {c : Char} (h : isLineTerminator c = true) :
    isBlank c = true := by
  simp only [isLineTerminator, Bool.or_eq_true, beq_iff_eq] at h
  rcases h with rfl | rfl <;> decide

end ScriptMinifier.Character
