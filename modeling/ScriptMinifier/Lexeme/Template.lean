-- Template literals. The script inside a substitution is kept as it is written, so the
-- scan only has to find the brace that ends it. Braces in the strings, templates and
-- comments of that script do not count, and those in its regular expressions do.
import ScriptMinifier.Lexeme.Comment
import ScriptMinifier.Lexeme.Quoted

namespace ScriptMinifier.Lexeme

/-- What a substitution steps over at once, a brace or a template apart: a string, a comment or
one character. -/
def substitutionItem : Text → Scan
  | '/' :: '*' :: text => blockComment ('/' :: '*' :: text)
  | '/' :: '/' :: text => lineComment ('/' :: '/' :: text)
  | c :: text => if isQuote c then quoted (c :: text) else { length := 1 }
  | [] => { length := 0 }

/-- The count of open braces behind one more. It is held in 32 bits with a sign: behind the largest
number comes a negative one, and a substitution whose count is not positive has ended. -/
def deeper (depth : Nat) : Nat := (Int32.ofNat depth + 1).toNatClampNeg

theorem length_drop_lt_succ (text : Text) (n : Nat) : (text.drop n).length < text.length + 1 := by
  rw [List.length_drop]
  omega

/-- The template from its first `read` characters on. In its text `depth` is zero, and in a
substitution it counts the open braces, that of the substitution included. What lies within a
substitution is scanned by itself, so a fault there keeps its own place. -/
def templateFrom (depth read : Nat) (crossed : Bool) (text : Text) : Scan :=
  match depth, text with
  | _, [] => { Scan.fail .openTemplate read with crossesLine := crossed }
  | 0, ['\\'] => { Scan.fail .openTemplate (read + 1) with crossesLine := crossed }
  | 0, '\\' :: _ :: rest => templateFrom 0 (read + 2) crossed rest
  | 0, '$' :: '{' :: rest => templateFrom 1 (read + 2) crossed rest
  | 0, c :: rest =>
    if c == '`' then { length := read + 1, crossesLine := crossed }
    else templateFrom 0 (read + 1) crossed rest
  | depth + 1, '{' :: rest => templateFrom (deeper (depth + 1)) (read + 1) crossed rest
  | depth + 1, '}' :: rest => templateFrom depth (read + 1) crossed rest
  | depth + 1, c :: rest =>
    let item := if c == '`' then templateFrom 0 1 false rest else substitutionItem (c :: rest)
    if item.fault.isSome then
      { item.within read with crossesLine := crossed || item.crossesLine }
    else
      templateFrom (depth + 1) (read + item.length) (crossed || item.crossesLine)
        (rest.drop (item.length - 1))
termination_by text.length
decreasing_by
  all_goals simp only [List.length_cons]
  any_goals exact length_drop_lt_succ _ _
  all_goals omega

/-- A template literal, from its opening backtick. -/
def template (text : Text) : Scan := templateFrom 0 1 false (text.drop 1)

theorem le_length_templateFrom (depth read : Nat) (crossed : Bool) (text : Text) :
    read ≤ (templateFrom depth read crossed text).length := by
  fun_induction templateFrom depth read crossed text <;>
    grind [Scan.length_fail, Scan.length_within]

end ScriptMinifier.Lexeme
