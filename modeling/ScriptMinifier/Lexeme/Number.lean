-- Numbers. Digits may be separated by single underscores, a decimal number may have a
-- fraction and an exponent, and a number with a radix starts with `0x`, `0b` or `0o`.
import ScriptMinifier.Lexeme.Scan
import ScriptMinifier.Text.Character

namespace ScriptMinifier.Lexeme

open Character

/-! ## Digits -/

/-- How many characters of digits there are, when `read` of them came before. An underscore
counts if it stands between two digits. -/
def digitRun (isDigit : Char → Bool) : (read : Nat) → Text → Nat
  | read, [] => read
  | read, ['_'] => read
  | read, '_' :: c :: text =>
    if 0 < read && isDigit c then digitRun isDigit (read + 2) text else read
  | read, c :: text => if isDigit c then digitRun isDigit (read + 1) text else read

def digits (isDigit : Char → Bool) (text : Text) : Nat := digitRun isDigit 0 text

theorem le_digitRun (isDigit : Char → Bool) (read : Nat) (text : Text) :
    read ≤ digitRun isDigit read text := by
  fun_induction digitRun isDigit read text <;> omega

/-! ## Decimal numbers -/

/-- One more character, if it is there and passes the test. -/
def optional (accepts : Char → Bool) : Text → Nat
  | c :: _ => if accepts c then 1 else 0
  | [] => 0

def isExponentMark (c : Char) : Bool := c == 'e' || c == 'E'

def isSign (c : Char) : Bool := c == '+' || c == '-'

/-- The exponent after the first `read` characters of a number. Where there is none, the number
ends. -/
def exponent (read : Nat) : Text → Scan
  | [] => { length := read }
  | c :: text =>
    if isExponentMark c then
      let sign := optional isSign text
      let count := digits isDigit (text.drop sign)
      if count = 0 then .fail .malformedNumber (read + 1 + sign)
      else { length := read + 1 + sign + count }
    else { length := read }

/-- A decimal number. With two dots after its digits, the second one is the start of a member
access, and with more the number is malformed. -/
def decimal (text : Text) : Scan :=
  let whole := digits isDigit text
  let rest := text.drop whole
  match (rest.takeWhile (· == '.')).length with
  | 0 =>
    let suffix := optional (· == 'n') rest
    exponent (whole + suffix) (rest.drop suffix)
  | 1 =>
    let fraction := digits isDigit (rest.drop 1)
    exponent (whole + 1 + fraction) (rest.drop (1 + fraction))
  | 2 => { length := whole + 1 }
  | _ => .fail .malformedNumber whole

theorem le_length_exponent (read : Nat) (text : Text) : read ≤ (exponent read text).length := by
  fun_cases exponent read text <;> grind [Scan.length_fail]

theorem digits_le_length_decimal (text : Text) : digits isDigit text ≤ (decimal text).length := by
  fun_cases decimal text with
  | case1 => exact Nat.le_trans (Nat.le_add_right _ _) (le_length_exponent _ _)
  | case2 =>
    exact Nat.le_trans (Nat.le_trans (Nat.le_add_right _ _) (Nat.le_add_right _ _))
      (le_length_exponent _ _)
  | case3 => exact Nat.le_succ _
  | case4 => exact Nat.le_refl _

/-! ## Numbers with a radix -/

/-- The digits that the letter of a radix asks for. -/
def radixDigits? (letter : Char) : Option (Char → Bool) :=
  if letter == 'x' || letter == 'X' then some isHexDigit
  else if letter == 'b' || letter == 'B' then some isBinaryDigit
  else if letter == 'o' || letter == 'O' then some isOctalDigit
  else none

/-- A number with a radix: two characters, then digits, and perhaps an `n`. -/
def radix (isDigit : Char → Bool) (text : Text) : Scan :=
  let count := digits isDigit (text.drop 2)
  if count = 0 then .fail .malformedNumber 2
  else { length := 2 + count + optional (· == 'n') (text.drop (2 + count)) }

theorem two_le_length_radix (isDigit : Char → Bool) (text : Text) :
    2 ≤ (radix isDigit text).length := by
  fun_cases radix isDigit text <;> grind [Scan.length_fail]

/-! ## Any number -/

/-- The number that the text starts with, if it starts with a digit, or with a dot and a
digit. -/
def number? : Text → Option Scan
  | '0' :: letter :: text =>
    match radixDigits? letter with
    | some isDigit => some (radix isDigit ('0' :: letter :: text))
    | none => some (decimal ('0' :: letter :: text))
  | '.' :: c :: text => if isDigit c then some (decimal ('.' :: c :: text)) else none
  | c :: text => if isDigit c then some (decimal (c :: text)) else none
  | [] => none

theorem digits_cons_pos {c : Char} (text : Text) (h : isDigit c = true) :
    0 < digits isDigit (c :: text) := by
  have hc : c ≠ '_' := by
    rintro rfl
    simp [isDigit] at h
  rw [digits, digitRun]
  · simp only [h, if_true]
    exact le_digitRun isDigit 1 text
  · simp [hc]
  · simp [hc]

theorem length_decimal_pos_of_digit {c : Char} (text : Text) (h : isDigit c = true) :
    0 < (decimal (c :: text)).length :=
  Nat.lt_of_lt_of_le (digits_cons_pos text h) (digits_le_length_decimal _)

theorem length_decimal_pos_of_dot {c : Char} (text : Text) (h : isDigit c = true) :
    0 < (decimal ('.' :: c :: text)).length := by
  have hc : (c == '.') = false := by
    apply beq_false_of_ne
    rintro rfl
    simp [isDigit] at h
  have h0 : digits isDigit ('.' :: c :: text) = 0 := by
    simp [digits, digitRun, isDigit]
  simp only [decimal, h0, List.drop_zero, List.takeWhile_cons, hc]
  exact Nat.lt_of_lt_of_le (by omega) (le_length_exponent _ _)

theorem length_number?_pos {text : Text} {scan : Scan} (h : number? text = some scan) :
    0 < scan.length := by
  fun_cases number? text with
  | case1 letter rest isDigit hr =>
    simp only [number?, hr, Option.some.injEq] at h
    exact h ▸ Nat.lt_of_lt_of_le (by decide) (two_le_length_radix _ _)
  | case2 letter rest hr =>
    simp only [number?, hr, Option.some.injEq] at h
    exact h ▸ length_decimal_pos_of_digit _ (by decide)
  | case3 c rest hc =>
    simp only [number?, hc, if_true, Option.some.injEq] at h
    exact h ▸ length_decimal_pos_of_dot _ hc
  | case4 c rest hc => simp [number?, hc] at h
  | case5 c rest _ _ hc =>
    simp only [number?, hc, if_true, Option.some.injEq] at h
    exact h ▸ length_decimal_pos_of_digit _ hc
  | case6 c rest _ _ hc => simp [number?, hc] at h
  | case7 => simp [number?] at h

end ScriptMinifier.Lexeme
