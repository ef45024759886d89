-- A lexer that walks over the bytes of a script, as a lexer does that keeps an offset into an
-- array. Every access is checked: a step past the end, a slice out of range and a text that is cut
-- in the middle of a character have no result, and neither has a loop that does not move on. So a
-- result tells that nothing of the sort has happened on the way to it.
import ScriptMinifier.Proofs.Encoding

namespace ScriptMinifier

open Character

/-- The bytes of a script. -/
abbrev Code := List UInt8

namespace Code

variable (code : Code)

/-! ## Checked access -/

/-- The byte at an offset, read as the character with its number, if there is one. -/
def peek (offset : Nat) : Option Char := code[offset]?.map charOfByte

theorem lt_length_of_peek {code : Code} {offset : Nat} {d : Char} (h : code.peek offset = some d) :
    offset < code.length := by
  obtain ⟨b, hb, _⟩ := Option.map_eq_some_iff.1 h
  exact (List.getElem?_eq_some_iff.1 hb).1

/-- The offset so many bytes ahead. All of them have to be there. -/
def step? (offset count : Nat) : Option Nat :=
  if offset + count ≤ code.length then some (offset + count) else none

/-- How many bytes are left. The offset must not lie behind the end. -/
def left? (offset : Nat) : Option Nat :=
  if offset ≤ code.length then some (code.length - offset) else none

/-- All bytes that are left. -/
def rest? (offset : Nat) : Option Text :=
  if offset ≤ code.length then some ((code.drop offset).map charOfByte) else none

/-- The bytes between two offsets, which have to be in order and in range. -/
def slice? (start stop : Nat) : Option Code :=
  if start ≤ stop ∧ stop ≤ code.length then some ((code.take stop).drop start) else none

/-- An offset where a character starts, or the end. -/
def isBoundary (offset : Nat) : Bool :=
  match code[offset]? with
  | some b => decide b.IsUTF8FirstByte
  | none => offset == code.length

/-- The bytes between two offsets, as a text. No character may be cut. -/
def text? (start stop : Nat) : Option Code :=
  if code.isBoundary start && code.isBoundary stop then code.slice? start stop else none

end Code

/-! ## Places -/

/-- The line that a walk over bytes has come to, and where that line starts. -/
structure ByteCursor where
  line : Nat := 0
  lineStart : Nat := 0
  offset : Nat := 0
  afterReturn : Bool := false

def ByteCursor.step (cursor : ByteCursor) (b : UInt8) : ByteCursor :=
  let c := charOfByte b
  { line := if c == '\r' || (c == '\n' && !cursor.afterReturn) then cursor.line + 1 else cursor.line
    lineStart := if isLineTerminator c then cursor.offset + 1 else cursor.lineStart
    offset := cursor.offset + 1
    afterReturn := c == '\r' }

namespace Code

variable (code : Code)

/-- The place of an offset. The characters of its line are counted by their first bytes. -/
def position? (offset : Nat) : Option Position := do
  let before ← code.slice? 0 offset
  let cursor := before.foldl ByteCursor.step {}
  let line ← code.text? cursor.lineStart offset
  return { offset, line := cursor.line, column := line.countP fun b => b.IsUTF8FirstByte }

/-! ## The end of a scan -/

/-- Where a scan has stopped, and why. -/
structure Halt where
  next : Nat
  error : Option LexError := none
  /-- A run of blanks or a comment with a line terminator has been passed. -/
  crossed : Bool := false
deriving DecidableEq, Repr

/-- A scan that began at `start` and fails at `next`. -/
def fail? (kind : LexError.Kind) (start next : Nat) (crossed : Bool := false) : Option Halt := do
  let position ← code.position? start
  return { next, error := some { kind, position }, crossed }

/-! ## Blanks and comments -/

/-- How many of the `left` bytes from `next` on pass the test, when `count` of them do. -/
def runFrom? (accepts : Char → Bool) (next left count : Nat) : Option Nat :=
  if count < left then do
    let c ← code.peek (next + count)
    if accepts c then runFrom? accepts next left (count + 1) else return count
  else return count
termination_by left - count

def run? (accepts : Char → Bool) (next : Nat) : Option Nat := do
  let left ← code.left? next
  code.runFrom? accepts next left 0

def blanks? (next : Nat) : Option Halt := do
  let count ← code.run? isBlank next
  let run ← code.slice? next (next + count)
  return { next := next + count, crossed := run.any fun b => isLineTerminator (charOfByte b) }

def blockComment? (start : Nat) : Option Halt := do
  let inside ← code.step? start 2
  let rest ← code.rest? inside
  match Lexeme.commentEnd? 0 rest with
  | none => code.fail? .openComment start inside
  | some count =>
    let comment ← code.slice? start (inside + count)
    return { next := inside + count
             crossed := comment.any fun b => isLineTerminator (charOfByte b) }

def lineComment? (next : Nat) : Option Halt := do
  let rest ← code.rest? next
  return { next := next + (rest.takeWhile fun c => !isLineTerminator c).length }

/-! ## Words and punctuators -/

def word? (next : Nat) : Option (TokenKind × Halt) := do
  let inside ← code.step? next 1
  let count ← code.run? (fun c => !isWordBreak c) inside
  let text ← code.text? next (inside + count)
  let isKeyword := keywords.any fun word => word.bytes == text
  return (if isKeyword then .keyword else .identifier, { next := inside + count })

/-- The first bytes of a match, which has to be long enough. -/
def shorten? (length count : Nat) : Option Nat := if count ≤ length then some count else none

def punctuator? (next : Nat) : Option (TokenKind × Halt) := do
  let rest ← code.rest? next
  match Lexeme.longestPunctuator? rest with
  | none => code.word? next
  | some mark =>
    if mark == ['?', '.'] && (code.peek (next + 2)).any isDigit then
      let count ← shorten? mark.length 1
      return (.punctuator, { next := next + count })
    else return (.punctuator, { next := next + mark.length })

/-! ## Numbers -/

def digits? (isDigit : Char → Bool) (next count : Nat) : Option Nat :=
  match h : code.peek (next + count) with
  | none => some count
  | some c =>
    if isDigit c then digits? isDigit next (count + 1)
    else if c == '_' && 0 < count && (code.peek (next + (count + 1))).any isDigit then
      digits? isDigit next (count + 2)
    else some count
termination_by code.length - (next + count)
decreasing_by all_goals have := lt_length_of_peek h; omega

def dots? (next count : Nat) : Option Nat :=
  if h : code.peek (next + count) = some '.' then dots? next (count + 1) else some count
termination_by code.length - (next + count)
decreasing_by have := lt_length_of_peek h; omega

/-- One more byte, if it is the given character. -/
def optional (c : Char) (next : Nat) : Nat := if code.peek next == some c then 1 else 0

/-- The offset behind a sign, if there is one. -/
def sign? (next : Nat) : Option Nat :=
  if (code.peek next).any Lexeme.isSign then code.step? next 1 else some next

def exponent? (start next : Nat) : Option Halt :=
  if (code.peek next).any Lexeme.isExponentMark then do
    let mark ← code.step? next 1
    let sign ← code.sign? mark
    let count ← code.digits? isDigit sign 0
    if count = 0 then code.fail? .malformedNumber start sign else return { next := sign + count }
  else return { next }

def decimal? (start : Nat) : Option Halt := do
  let count ← code.digits? isDigit start 0
  let whole := start + count
  match ← code.dots? whole 0 with
  | 0 => code.exponent? start (whole + code.optional 'n' whole)
  | 1 =>
    let point ← code.step? whole 1
    let fraction ← code.digits? isDigit point 0
    code.exponent? start (point + fraction)
  | 2 =>
    let point ← code.step? whole 1
    return { next := point }
  | _ => code.fail? .malformedNumber start whole

def radix? (isDigit : Char → Bool) (start : Nat) : Option Halt := do
  let inside ← code.step? start 2
  let count ← code.digits? isDigit inside 0
  if count = 0 then code.fail? .malformedNumber start inside
  else return { next := inside + count + code.optional 'n' (inside + count) }

/-! ## Regular expressions and strings -/

def regexFrom? (start : Nat) (inClass : Bool) (next : Nat) : Option Halt :=
  match h : code.peek next with
  | none => code.fail? .openRegex start next
  | some c =>
    if c == '\\' then
      match code.peek (next + 1) with
      | none => code.fail? .openRegex start (next + 1)
      | some d =>
        if isLineTerminator d then code.fail? .openRegex start (next + 2)
        else regexFrom? start inClass (next + 2)
    else if c == '/' && !inClass then do
      let count ← code.run? isRegexFlag (next + 1)
      return { next := next + 1 + count }
    else if c == '[' then regexFrom? start true (next + 1)
    else if c == ']' && inClass then regexFrom? start false (next + 1)
    else if isLineTerminator c then code.fail? .openRegex start (next + 1)
    else regexFrom? start inClass (next + 1)
termination_by code.length - next
decreasing_by all_goals have := lt_length_of_peek h; omega

def regex? (start : Nat) : Option Halt := do
  let inside ← code.step? start 1
  code.regexFrom? start false inside

def quotedFrom? (start : Nat) (quote : Char) (next : Nat) : Option Halt :=
  match h : code.peek next with
  | none => code.fail? .openString start next
  | some c =>
    if c == '\\' then
      match code.peek (next + 1) with
      | none => code.fail? .openContinuation start (next + 1)
      | some d =>
        if d == '\r' then quotedFrom? start quote (next + 2 + code.optional '\n' (next + 2))
        else quotedFrom? start quote (next + 2)
    else if c == quote then some { next := next + 1 }
    else if isLineTerminator c then code.fail? .openString start (next + 1)
    else quotedFrom? start quote (next + 1)
termination_by code.length - next
decreasing_by all_goals have := lt_length_of_peek h; omega

def quoted? (start : Nat) : Option Halt := do
  let quote ← code.peek start
  let inside ← code.step? start 1
  code.quotedFrom? start quote inside

/-! ## Templates -/

/-- What a substitution steps over at once, braces and templates apart. -/
def substitutionItem? (next : Nat) (c : Char) : Option Halt :=
  if Lexeme.isQuote c then code.quoted? next
  else do
    let rest ← code.rest? next
    if ['/', '*'].isPrefixOf rest then code.blockComment? next
    else if ['/', '/'].isPrefixOf rest then code.lineComment? next
    else
      let next ← code.step? next 1
      return { next }

/-- The template from `next` on. In its text `depth` is zero, and in a substitution it counts the
open braces, that of the substitution included. -/
def templateFrom? (start depth next : Nat) (crossed : Bool) : Option Halt :=
  match h : code.peek next with
  | none => code.fail? .openTemplate start next crossed
  | some c =>
    if depth = 0 then
      if c == '\\' then
        match code.peek (next + 1) with
        | none => code.fail? .openTemplate start (next + 1) crossed
        | some _ => templateFrom? start 0 (next + 2) crossed
      else if c == '`' then some { next := next + 1, crossed }
      else if c == '$' && code.peek (next + 1) == some '{' then do
        let _ ← code.step? (next + 1) 1
        templateFrom? start 1 (next + 2) crossed
      else templateFrom? start 0 (next + 1) crossed
    else if c == '{' then do
      let _ ← code.step? next 1
      templateFrom? start (Lexeme.deeper depth) (next + 1) crossed
    else if c == '}' then do
      let _ ← code.step? next 1
      templateFrom? start (depth - 1) (next + 1) crossed
    else do
      let item ←
        (if c == '`' then do
          let _ ← code.step? next 1
          templateFrom? next 0 (next + 1) false
        else code.substitutionItem? next c)
      if item.error.isSome then return { item with crossed := crossed || item.crossed }
      else if next < item.next then templateFrom? start depth item.next (crossed || item.crossed)
      else none
termination_by code.length - next
decreasing_by all_goals have := lt_length_of_peek h; omega

def template? (start : Nat) : Option Halt := do
  let inside ← code.step? start 1
  code.templateFrom? start 0 inside false

/-! ## Any lexeme -/

def significant? (slash : Slash) (next : Nat) : Option (TokenKind × Halt) := do
  let c ← code.peek next
  let ahead := code.peek (next + 1)
  if Lexeme.isQuote c then return (.string, ← code.quoted? next)
  else if c == '`' then return (.template, ← code.template? next)
  else if c == '/' && slash == .regex then return (.regex, ← code.regex? next)
  else if c == '0' && ahead.any (fun d => d == 'x' || d == 'X') then
    return (.number, ← code.radix? isHexDigit next)
  else if c == '0' && ahead.any (fun d => d == 'b' || d == 'B') then
    return (.number, ← code.radix? isBinaryDigit next)
  else if c == '0' && ahead.any (fun d => d == 'o' || d == 'O') then
    return (.number, ← code.radix? isOctalDigit next)
  else if isDigit c then return (.number, ← code.decimal? next)
  else if c == '.' && ahead.any isDigit then return (.number, ← code.decimal? next)
  else if isOperator c then code.punctuator? next
  else code.word? next

def scan? (slash : Slash) (atLineStart : Bool) (next : Nat) : Option (TokenKind × Halt) := do
  let c ← code.peek next
  if isBlank c then
    let halt ← code.blanks? next
    return (if halt.crossed then .lineBreak else .blank, halt)
  else
    let rest ← code.rest? next
    if ['/', '*'].isPrefixOf rest then return (.blockComment, ← code.blockComment? next)
    else if ['/', '/'].isPrefixOf rest || ['<', '!', '-', '-'].isPrefixOf rest ||
        (atLineStart && ['-', '-', '>'].isPrefixOf rest) then
      return (.lineComment, ← code.lineComment? next)
    else code.significant? slash next

end Code

/-! ## The lexer -/

/-- A token as a range of bytes. -/
structure ByteToken where
  kind : TokenKind
  start : Nat
  stop : Nat
  followsBreak : Bool
deriving DecidableEq, Repr

/-- An offset into the bytes of a script, and two marks about the line that it stands on. -/
structure ByteLexer where
  code : Code
  next : Nat := 0
  /-- A line terminator has been read since the last significant token. -/
  breakPending : Bool := false
  /-- No significant token has been read on this line. -/
  atLineStart : Bool := true
deriving DecidableEq, Repr

namespace ByteLexer

/-- The lexer where a scan has stopped. A line terminator on the way sets both marks. -/
def halted (lexer : ByteLexer) (halt : Code.Halt) : ByteLexer :=
  { lexer with
    next := halt.next
    breakPending := lexer.breakPending || halt.crossed
    atLineStart := lexer.atLineStart || halt.crossed }

/-- The answer of a scan, and the lexer behind it. A significant token clears both marks. -/
def answer (lexer : ByteLexer) (kind : TokenKind) (halt : Code.Halt) :
    Except LexError ByteToken × ByteLexer :=
  match halt.error with
  | some error => (.error error, lexer.halted halt)
  | none =>
    let token := { kind, start := lexer.next, stop := halt.next
                   followsBreak := kind.isSignificant && lexer.breakPending }
    if kind.isSignificant then
      (.ok token, { lexer with next := halt.next, breakPending := false, atLineStart := false })
    else (.ok token, lexer.halted halt)

/-- The next token or the error in its place, unless an access is out of range on the way. -/
def next? (lexer : ByteLexer) (slash : Slash) :
    Option (Except LexError ByteToken × ByteLexer) := do
  let stop := lexer.code.length
  if stop ≤ lexer.next then
    return (.ok { kind := .endOfInput, start := stop, stop, followsBreak := lexer.breakPending },
      lexer)
  else
    let (kind, halt) ← lexer.code.scan? slash lexer.atLineStart lexer.next
    return lexer.answer kind halt

end ByteLexer

end ScriptMinifier
