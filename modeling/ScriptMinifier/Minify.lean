-- Minifying a JavaScript program in one pass. Blanks and comments are left out, line
-- breaks are kept where they end a statement, and long lines are broken where a break
-- means nothing.
import ScriptMinifier.Page
import ScriptMinifier.Reading
import ScriptMinifier.Shortening
import ScriptMinifier.Style

namespace ScriptMinifier

/-! ## Setting a piece -/

/-- Sets a piece of the given class on a page. A break that was kept for it already stands there.
Else the line is broken if it would grow too long and a break does no harm: one that would end
the statement does, and so does one before `++`, `--` or `=>`. -/
def Page.set (page : Page) (text : Text) (c : TokenClass) (breakKept breakMatters : Bool) : Page :=
  if breakKept then page.write text
  else if page.overflows text && !breakMatters && c != .increment && c != .arrow then
    page.newline.write text
  else if page.needsSpace text then page.space.write text
  else page.write text

/-- A `true` or `false` that is not set yet, since the token after it decides its spelling. -/
structure HeldPiece where
  full : Text
  short : Text
  breakKept : Bool
  breakMatters : Bool
deriving DecidableEq, Repr

/-! ## The writer -/

/-- A minified script in the making. -/
structure Writer where
  style : Style
  page : Page
  tracker : Tracker := .start
  previous : Option Token := none
  held : Option HeldPiece := none
deriving DecidableEq, Repr

namespace Writer

def ofStyle (style : Style) : Writer := { style, page := .blank style.maxLineLength }

/-- Sets the held piece, now that the token after it is known or that there is none. -/
def settle (writer : Writer) (next : Option Text) : Writer :=
  match writer.held with
  | none => writer
  | some piece =>
    let text := if next.any bindsTighter then piece.full else piece.short
    { writer with
      page := writer.page.set text .literal piece.breakKept piece.breakMatters
      held := none }

/-- Keeps the line break before the next token, which ends the statement. -/
def keepBreak (writer : Writer) : Writer :=
  { writer with page := writer.page.newline, tracker := writer.tracker.endStatement }

/-- Sets the text of a token, or holds it back if it has a short spelling. -/
def put (writer : Writer) (text : Text) (c : TokenClass) (breakKept breakMatters : Bool) :
    Writer :=
  match shortened? text c writer.tracker.place writer.page.last with
  | some short => { writer with held := some { full := text, short, breakKept, breakMatters } }
  | none => { writer with page := writer.page.set text c breakKept breakMatters }

/-- Moves the tracker past a token, and ends the line if the style asks for it. -/
def advance (writer : Writer) (c : TokenClass) : Writer :=
  let tracker := writer.tracker.advance c
  let endsLine := writer.style.statementsOnOwnLine &&
    (writer.tracker.place.endsLineFrom c || tracker.place.endsLineAt c)
  { writer with tracker, page := if endsLine then writer.page.newline else writer.page }

def accept (writer : Writer) (token : Token) : Writer :=
  let settled := writer.settle (some token.text)
  let c := token.classAfter settled.previous
  let breakMatters := settled.tracker.breaksBefore c
  let breakKept := token.followsBreak && breakMatters
  let opened := if breakKept then settled.keepBreak else settled
  { (opened.put token.text c breakKept breakMatters).advance c with previous := some token }

/-- All that has been written, with the piece that was held back. -/
def finish (writer : Writer) : Text := (writer.settle none).page.text

/-! ## The run -/

set_option linter.unusedVariables false in
/-- Writes the rest of a script. The first error is the result. -/
def run (writer : Writer) (lexer : Lexer) : Except LexError Text :=
  match h : lexer.next writer.tracker.slash with
  | (.error error, _) => .error error
  | (.ok token, rest) =>
    if hk : token.kind = .endOfInput then .ok writer.finish
    else run (if token.isSignificant then writer.accept token else writer) rest
termination_by lexer.rest.length
decreasing_by
  have := Lexer.length_rest_next _ writer.tracker.slash (Lexer.rest_ne_nil_of_next h hk)
  rwa [h] at this

theorem run_error {writer : Writer} {lexer rest : Lexer} {error : LexError}
    (h : lexer.next writer.tracker.slash = (.error error, rest)) :
    writer.run lexer = .error error := by
  rw [run]
  split
  · next h' => simp_all
  · next h' => simp_all

theorem run_end {writer : Writer} {lexer rest : Lexer} {token : Token}
    (h : lexer.next writer.tracker.slash = (.ok token, rest)) (hk : token.kind = .endOfInput) :
    writer.run lexer = .ok writer.finish := by
  rw [run]
  split
  · next h' => simp_all
  · next h' => simp_all

theorem run_token {writer : Writer} {lexer rest : Lexer} {token : Token}
    (h : lexer.next writer.tracker.slash = (.ok token, rest)) (hk : token.kind ≠ .endOfInput) :
    writer.run lexer =
      (if token.isSignificant then writer.accept token else writer).run rest := by
  rw [run]
  split
  · next h' => simp_all
  · next h' => simp_all

end Writer

def minifyText (source : Text) (style : Style) : Except LexError Text :=
  (Writer.ofStyle style).run (.ofText source)

def minify (source : String) (style : Style := .usual) : Except LexError String :=
  (minifyText source.toList style).map String.ofList

/-- Two runs agree when they give the same script, or errors with the same cause. -/
def sameOutcome : Except LexError String → Except LexError String → Bool
  | .ok a, .ok b => a == b
  | .error a, .error b => a.sameKind b
  | _, _ => false

end ScriptMinifier
