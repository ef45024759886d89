-- The lexer walks over a script and hands out one token after the other. It can be used
-- on after an error: what the failed scan has read stays read.
import ScriptMinifier.Lexeme

namespace ScriptMinifier

/-- What lies between the last significant token and the place where the lexer stands. -/
inductive Margin where
  /-- No significant token and no line terminator has been read yet. -/
  | start
  /-- A line terminator has been read since the last significant token. -/
  | broken
  /-- A significant token stands before on the same line. -/
  | inline
deriving DecidableEq, Repr

/-- A script that has been read up to some place. -/
structure Lexer where
  source : Text
  /-- How many bytes have been read. -/
  offset : Nat
  rest : Text
  margin : Margin
deriving DecidableEq, Repr

namespace Lexer

def ofText (source : Text) : Lexer := { source, offset := 0, rest := source, margin := .start }

def isAtEnd (lexer : Lexer) : Bool := lexer.rest.isEmpty

/-- No significant token stands before on the same line. -/
def isAtLineStart (lexer : Lexer) : Bool := lexer.margin != .inline

/-! ## One step -/

/-- The kind of the next lexeme, and how far it goes. -/
def peek (lexer : Lexer) (slash : Slash) : TokenKind × Scan :=
  Lexeme.scan slash lexer.isAtLineStart lexer.rest

/-- The margin after a scan. A token that was read stands on the current line, while a comment
or a run of blanks leaves the margin as it is or breaks it. -/
def marginAfter (lexer : Lexer) (kind : TokenKind) (scan : Scan) : Margin :=
  if scan.fault.isNone && kind.isSignificant then .inline
  else if scan.crossesLine then .broken
  else lexer.margin

def skip (lexer : Lexer) (kind : TokenKind) (scan : Scan) : Lexer :=
  { lexer with
    offset := lexer.offset + Text.byteSize (scan.lexeme lexer.rest)
    rest := scan.rest lexer.rest
    margin := lexer.marginAfter kind scan }

def errorAt (lexer : Lexer) (fault : Fault) : LexError :=
  { kind := fault.kind
    position := Position.resolve lexer.source
      (lexer.offset + Text.byteSize (lexer.rest.take fault.start)) }

def tokenAt (lexer : Lexer) (kind : TokenKind) (scan : Scan) : Token :=
  { kind
    text := scan.lexeme lexer.rest
    start := lexer.offset
    followsBreak := (kind.isSignificant || kind == .endOfInput) && lexer.margin == .broken }

/-- The next token or the error in its place, and the lexer behind it. At the end of the script
every call gives the same token without text. -/
def next (lexer : Lexer) (slash : Slash) : Except LexError Token × Lexer :=
  let (kind, scan) := lexer.peek slash
  (match scan.fault with
    | some fault => .error (lexer.errorAt fault)
    | none => .ok (lexer.tokenAt kind scan),
   lexer.skip kind scan)

/-! ## Progress -/

/-- Only the end of the script gives the token of that kind. -/
theorem rest_ne_nil_of_next {lexer after : Lexer} {slash : Slash} {token : Token}
    (h : lexer.next slash = (.ok token, after)) (hk : token.kind ≠ .endOfInput) :
    lexer.rest ≠ [] := by
  intro hr
  simp only [next, peek, hr, Lexeme.scan, Prod.mk.injEq, Except.ok.injEq] at h
  exact hk (by rw [← h.1]; rfl)

/-- Each step before the end leaves less to be read. -/
theorem length_rest_next (lexer : Lexer) (slash : Slash) (h : lexer.rest ≠ []) :
    (lexer.next slash).2.rest.length < lexer.rest.length := by
  obtain ⟨c, text, hr⟩ := List.exists_cons_of_ne_nil h
  have := Lexeme.length_scan_pos slash lexer.isAtLineStart c text
  simp only [next, skip, peek, Scan.rest, hr, List.length_drop, List.length_cons]
  omega

end Lexer

end ScriptMinifier
