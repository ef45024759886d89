-- Punctuators and words, the tokens that are told apart by a table.
import ScriptMinifier.Lexeme.Scan
import ScriptMinifier.Text.Character
import ScriptMinifier.Token

namespace ScriptMinifier.Lexeme

open Character

/-! ## Punctuators -/

/-- The longest punctuator that the text starts with. None has more than four characters. -/
def longestPunctuator? (text : Text) : Option Text :=
  ([4, 3, 2, 1].map text.take).find? (punctuators.contains ·)

/-- How many characters of a punctuator are read. In front of a digit the mark `?.` is a
question mark and a fraction. -/
def punctuatorLength (mark text : Text) : Nat :=
  if mark == ['?', '.'] && (text.drop 2).head?.any isDigit then 1 else mark.length

/-! ## Words -/

/-- A word: one character, whatever it is, and all that follow up to a blank or an operator. -/
def word (text : Text) : Scan :=
  { length := 1 + ((text.drop 1).takeWhile fun c => !isWordBreak c).length }

def wordKind (text : Text) : TokenKind := if keywords.contains text then .keyword else .identifier

/-- A punctuator, or a word where no punctuator starts. -/
def punctuatorOrWord (text : Text) : TokenKind × Scan :=
  match longestPunctuator? text with
  | some mark => (.punctuator, { length := punctuatorLength mark text })
  | none => (wordKind ((word text).lexeme text), word text)

theorem longestPunctuator?_ne_nil (text : Text) : longestPunctuator? text ≠ some [] := by
  intro h
  have : punctuators.contains ([] : Text) = true := List.find?_some h
  simp [punctuators, punctuatorTable] at this

theorem length_punctuatorOrWord_pos (text : Text) : 0 < (punctuatorOrWord text).2.length := by
  rw [punctuatorOrWord]
  split
  · next mark h =>
    simp only [punctuatorLength]
    split
    · decide
    · exact List.length_pos_iff.2 fun hn => longestPunctuator?_ne_nil text (hn ▸ h)
  · exact Nat.lt_of_lt_of_le Nat.zero_lt_one (Nat.le_add_right _ _)

end ScriptMinifier.Lexeme
