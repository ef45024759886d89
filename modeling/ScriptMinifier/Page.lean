-- The page that a minified script is written on. It knows just enough about what stands
-- on it to tell how the next piece has to be joined.
import ScriptMinifier.Text.Character

namespace ScriptMinifier

open Character

inductive Mark where
  | piece (text : Text)
  | space
  | newline
deriving DecidableEq, Repr

namespace Mark

def text : Mark → Text
  | piece text => text
  | space => [' ']
  | newline => ['\n']

end Mark

/-- A page with its marks, the newest first. -/
structure Page where
  /-- How many characters a line should have at most. -/
  limit : Nat
  marks : List Mark := []
  /-- How many characters stand on the current line. -/
  column : Nat := 0
  /-- The last character of the last piece. A page without a piece counts as one that ends in a
  semicolon, so that nothing is set apart from its start. -/
  last : Char := ';'
  /-- The last piece is a decimal number without a dot, which would take in a dot after it. -/
  endsInInteger : Bool := false
deriving DecidableEq, Repr

/-- Digits and underscores, with a digit first. -/
def isPlainInteger (text : Text) : Bool :=
  text.head?.any isDigit && text.all fun c => isDigit c || c == '_'

namespace Page

/-! ## Writing -/

def blank (limit : Nat) : Page := { limit }

def write (page : Page) (text : Text) : Page :=
  { page with
    marks := .piece text :: page.marks
    column := page.column + text.length
    last := text.getLast?.getD page.last
    endsInInteger := isPlainInteger text }

def space (page : Page) : Page :=
  { page with marks := .space :: page.marks, column := page.column + 1 }

def newline (page : Page) : Page := { page with marks := .newline :: page.marks, column := 0 }

def text (page : Page) : Text := page.marks.reverse.flatMap Mark.text

/-! ## Joining -/

/-- Whether the text would take the current line past the limit. An empty line takes every
text. -/
def overflows (page : Page) (text : Text) : Bool :=
  0 < page.column && page.limit < page.column + text.length

/-- Whether the text would change its meaning, or that of the last piece, without a space between
them. -/
def needsSpace (page : Page) : Text → Bool
  | [] => false
  | c :: _ =>
    -- Two words would be one.
    (!isOperator page.last && !isOperator c)
      -- Two signs would be an increment, and two slashes a comment.
      || (page.last == c && (c == '+' || c == '-' || c == '/'))
      -- A comment in the style of markup would start.
      || (page.last == '<' && c == '!')
      -- The dot would be part of the number.
      || (page.endsInInteger && c == '.')

@[simp]
theorem text_write (page : Page) (text : Text) : (page.write text).text = page.text ++ text := by
  simp [Page.text, write, Mark.text]

@[simp]
theorem text_space (page : Page) : page.space.text = page.text ++ [' '] := by
  simp [Page.text, space, Mark.text]

@[simp]
theorem text_newline (page : Page) : page.newline.text = page.text ++ ['\n'] := by
  simp [Page.text, newline, Mark.text]

end Page

end ScriptMinifier
