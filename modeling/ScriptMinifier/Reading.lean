-- Reading a whole script. The lexer cannot tell a regular expression from a division by
-- itself, so a tracker runs along and tells it what a slash stands for.
import ScriptMinifier.Lexer
import ScriptMinifier.Tracker

namespace ScriptMinifier

/-- A script that has been read up to some place, and the place in the program that the tokens
have led to. -/
structure Reader where
  lexer : Lexer
  tracker : Tracker := .start
  /-- The last significant token. -/
  previous : Option Token := none
deriving DecidableEq, Repr

namespace Reader

def ofText (source : Text) : Reader := { lexer := .ofText source }

/-- The next token, with the slash read as the tracker says. -/
def next (reader : Reader) : Except LexError Token × Lexer :=
  reader.lexer.next reader.tracker.slash

/-- The reader behind a token. Blanks and comments leave the tracker alone. -/
def after (reader : Reader) (token : Token) (lexer : Lexer) : Reader :=
  if token.isSignificant then
    { lexer
      tracker := reader.tracker.read (token.classAfter reader.previous) token.followsBreak
      previous := some token }
  else { reader with lexer }

theorem lexer_after (reader : Reader) (token : Token) (lexer : Lexer) :
    (reader.after token lexer).lexer = lexer := by
  unfold after
  split <;> rfl

set_option linter.unusedVariables false in
/-- The tokens up to the end of the script, behind those that were read before. The first error
is the result. -/
def tokensFrom (reader : Reader) (before : List Token) : Except LexError (List Token) :=
  match h : reader.next with
  | (.error error, _) => .error error
  | (.ok token, lexer) =>
    if hk : token.kind = .endOfInput then .ok before.reverse
    else (reader.after token lexer).tokensFrom (token :: before)
termination_by reader.lexer.rest.length
decreasing_by
  rw [lexer_after]
  have := Lexer.length_rest_next _ reader.tracker.slash (Lexer.rest_ne_nil_of_next h hk)
  rwa [show reader.lexer.next reader.tracker.slash = _ from h] at this

/-! ## One turn of the loop -/

theorem tokensFrom_error {reader : Reader} {error : LexError} {lexer : Lexer}
    (h : reader.next = (.error error, lexer)) (before : List Token) :
    reader.tokensFrom before = .error error := by
  rw [tokensFrom]
  split
  · next h' => simp_all
  · next h' => simp_all

theorem tokensFrom_end {reader : Reader} {token : Token} {lexer : Lexer}
    (h : reader.next = (.ok token, lexer)) (hk : token.kind = .endOfInput) (before : List Token) :
    reader.tokensFrom before = .ok before.reverse := by
  rw [tokensFrom]
  split
  · next h' => simp_all
  · next h' => simp_all

theorem tokensFrom_token {reader : Reader} {token : Token} {lexer : Lexer}
    (h : reader.next = (.ok token, lexer)) (hk : token.kind ≠ .endOfInput) (before : List Token) :
    reader.tokensFrom before = (reader.after token lexer).tokensFrom (token :: before) := by
  rw [tokensFrom]
  split
  · next h' => simp_all
  · next h' => simp_all

end Reader

/-- The tokens of a script, with its blanks and comments and without its end. -/
def tokens (source : Text) : Except LexError (List Token) := (Reader.ofText source).tokensFrom []

def tokenize (source : String) : Except LexError (List Token) := tokens source.toList

end ScriptMinifier
