-- Numbers are read by their grammar. How many dots stand behind the first numeral of a number
-- decides what else belongs to it, and whether an exponent may follow. A number with a radix is a
-- letter and a numeral of that radix.
import ScriptMinifier.Proofs.Numbers
import ScriptMinifier.Proofs.Numerals
import ScriptMinifier.Proofs.Standing

namespace ScriptMinifier

open Character

namespace Lexeme

variable {accepts : Char → Bool} {text part : Text}

/-! ## Decimal numbers -/

/-- What belongs to a number before its exponent, behind its first numeral. Two dots or more do not
count here. -/
inductive MantissaOf (whole : Text) : (rest body left : Text) → Prop where
  | integer {rest : Text} (other : ∀ c ∈ rest.head?, c ∉ ['.', 'n']) :
      MantissaOf whole rest whole rest
  | bigInteger {rest : Text} : MantissaOf whole ('n' :: rest) (whole ++ ['n']) rest
  | fraction {part rest : Text} (longest : IsLongest isDigit (part ++ rest) part) :
      MantissaOf whole ('.' :: (part ++ rest)) (whole ++ '.' :: part) rest

theorem MantissaOf.unique {whole rest body left body' left' : Text}
    (h : MantissaOf whole rest body left) (h' : MantissaOf whole rest body' left') :
    left = left' := by
  cases h with
  | integer hother =>
    cases h' with
    | integer => rfl
    | bigInteger => simp at hother
    | fraction => simp at hother
  | bigInteger =>
    cases h' with
    | integer hother => simp at hother
    | bigInteger => rfl
  | @fraction part left hlongest =>
    -- Both fractions are the longest numeral behind the dot.
    generalize hahead : '.' :: (part ++ left) = ahead at h'
    cases h' with
    | integer hother => simp [← hahead] at hother
    | bigInteger => cases hahead
    | @fraction part' rest' hlongest' =>
      have hsame := (List.cons.inj hahead).2
      rw [← hsame] at hlongest'
      obtain rfl := hlongest.unique hlongest'
      exact List.append_cancel_left hsame

/-- How many dots the text starts with. -/
def dots (text : Text) : Nat := (text.takeWhile (· == '.')).length

theorem dots_eq_zero (h : ∀ c ∈ text.head?, c ≠ '.') : dots text = 0 := by
  rw [dots, takeWhile_eq_nil (by simpa using h), List.length_nil]

theorem dots_cons (text : Text) : dots ('.' :: text) = dots text + 1 := by
  simp [dots]

theorem exists_cons_of_dot (h : ¬ ∀ c ∈ text.head?, c ≠ '.') : ∃ rest, text = '.' :: rest := by
  cases text <;> simp_all

/-- The number of dots behind the first numeral decides how a decimal number is read. -/
theorem decimal_eq (text : Text) :
    ∃ whole rest, text = whole ++ rest ∧ IsLongest isDigit text whole ∧
      (3 ≤ dots rest ∧ (∃ n, decimal text = .fail .malformedNumber n) ∨
       dots rest = 2 ∧ whole ++ ['.'] <+: text ∧
         decimal text = { length := (whole ++ ['.']).length } ∨
       dots rest ≤ 1 ∧ ∃ body left, MantissaOf whole rest body left ∧ text = body ++ left ∧
         decimal text = exponent body.length left) := by
  obtain ⟨whole, rest, rfl, hwhole, hlongest⟩ := exists_isLongest isDigit rfl text
  refine ⟨whole, rest, rfl, hlongest, ?_⟩
  by_cases hrest : ∀ c ∈ rest.head?, c ≠ '.'
  · refine Or.inr (Or.inr ⟨by simp [dots_eq_zero hrest], ?_⟩)
    rw [decimal_of_no_dot hwhole hrest]
    by_cases hsuffix : rest.head? = some 'n'
    · obtain ⟨left, rfl⟩ := List.head?_eq_some_iff.1 hsuffix
      exact ⟨whole ++ ['n'], left, .bigInteger, by simp, by simp [optional]⟩
    · refine ⟨whole, rest, .integer ?_, rfl, ?_⟩
      · intro c hc
        have hne : c ≠ 'n' := by
          rintro rfl
          exact hsuffix hc
        simp [hrest c hc, hne]
      · have hnone : optional (· == 'n') rest = 0 := by
          cases rest <;> simp_all [optional]
        rw [hnone, Nat.add_zero, List.drop_zero]
  obtain ⟨rest, rfl⟩ := exists_cons_of_dot hrest
  by_cases hrest : ∀ c ∈ rest.head?, c ≠ '.'
  · refine Or.inr (Or.inr ⟨by simp [dots_cons, dots_eq_zero hrest], ?_⟩)
    rw [decimal_of_dot hwhole hrest]
    obtain ⟨part, left, rfl, hcount, hlongest'⟩ := exists_isLongest isDigit rfl rest
    refine ⟨whole ++ '.' :: part, left, .fraction hlongest', by simp, ?_⟩
    rw [hcount, List.drop_left]
    congr 1
    simp
    omega
  obtain ⟨rest, rfl⟩ := exists_cons_of_dot hrest
  by_cases hrest : ∀ c ∈ rest.head?, c ≠ '.'
  · refine Or.inr (Or.inl ⟨by simp [dots_cons, dots_eq_zero hrest], ⟨'.' :: rest, by simp⟩, ?_⟩)
    rw [decimal_of_two_dots hwhole hrest]
    simp
  obtain ⟨rest, rfl⟩ := exists_cons_of_dot hrest
  exact Or.inl ⟨by simp [dots_cons], _, decimal_of_more_dots hwhole⟩

/-- Three dots or more, or the mark of an exponent and no exponent. -/
def IsMalformed (whole rest : Text) : Prop :=
  3 ≤ dots rest ∨
    dots rest ≤ 1 ∧ ∃ body left, MantissaOf whole rest body left ∧ LacksExponent left

/-- All of the number that starts with the numeral `whole`. With two dots behind the numeral, only
the first of them belongs to it. -/
inductive DecimalOf (whole rest : Text) : Text → Prop where
  | point (two : dots rest = 2) : DecimalOf whole rest (whole ++ ['.'])
  | plain {body left part : Text} (few : dots rest ≤ 1)
      (mantissa : MantissaOf whole rest body left) (exponent : ExponentOf left part) :
      DecimalOf whole rest (body ++ part)

theorem DecimalOf.not_isMalformed {whole rest body : Text} (h : DecimalOf whole rest body) :
    ¬ IsMalformed whole rest := by
  rintro (hmany | ⟨hfew, _, _, hmantissa, hlacks⟩)
  · cases h <;> omega
  · cases h with
    | point htwo => omega
    | plain _ hmantissa' hexponent =>
      rw [hmantissa.unique hmantissa'] at hlacks
      exact hexponent.not_lacksExponent hlacks

/-- A decimal number is read as a whole unless it is malformed. -/
theorem exists_decimalOf (text : Text) :
    ∃ whole rest, text = whole ++ rest ∧ IsLongest isDigit text whole ∧
      (IsMalformed whole rest ∧ (∃ n, decimal text = .fail .malformedNumber n) ∨
       ∃ body, DecimalOf whole rest body ∧ body <+: text ∧
         decimal text = { length := body.length }) := by
  obtain ⟨whole, rest, rfl, hlongest, hdecimal⟩ := decimal_eq text
  refine ⟨whole, rest, rfl, hlongest, ?_⟩
  rcases hdecimal with
    ⟨hmany, hfail⟩ | ⟨htwo, hstarts, hread⟩ | ⟨hfew, body, left, hbody, htext, hread⟩
  · exact Or.inl ⟨Or.inl hmany, hfail⟩
  · exact Or.inr ⟨_, .point htwo, hstarts, hread⟩
  · rw [hread, htext]
    rcases exponent_eq body.length left with ⟨hlacks, hfail⟩ | ⟨part, hpart, hstarts, hread⟩
    · exact Or.inl ⟨Or.inr ⟨hfew, body, left, hbody, hlacks⟩, hfail⟩
    · refine Or.inr ⟨body ++ part, .plain hfew hbody hpart, ?_, ?_⟩
      · exact (List.prefix_append_right_inj body).2 hstarts
      · rw [hread, List.length_append]

/-! ## Numbers with a radix -/

/-- The letters that tell a radix, and the digits that each of them asks for. -/
def radixes : List (Char × (Char → Bool)) :=
  [('x', isHexDigit), ('X', isHexDigit), ('b', isBinaryDigit), ('B', isBinaryDigit),
    ('o', isOctalDigit), ('O', isOctalDigit)]

theorem radixDigits?_eq_lookup (letter : Char) : radixDigits? letter = radixes.lookup letter := by
  simp only [radixDigits?, radixes, List.lookup_cons, List.lookup_nil]
  cases letter == 'x' <;> cases letter == 'X' <;> cases letter == 'b' <;> cases letter == 'B' <;>
    cases letter == 'o' <;> cases letter == 'O' <;> rfl

theorem not_accepts_underscore {letter : Char} (h : radixDigits? letter = some accepts) :
    letter ≠ '_' ∧ accepts '_' = false := by
  obtain ⟨hletter, rfl | rfl | rfl⟩ := radixDigits?_cases h <;> refine ⟨?_, rfl⟩ <;>
    · rintro rfl
      cases hletter

/-- The mark of a big integer, if it is the next character. -/
def bigSuffix (text : Text) : Text := if text.head? = some 'n' then ['n'] else []

/-- A number with a radix takes the longest numeral behind its letter, and fails without one. -/
theorem radix_eq (hunderscore : accepts '_' = false) (a b : Char) (text : Text) :
    ∃ part rest, text = part ++ rest ∧ IsLongest accepts text part ∧
      (part = [] ∧ (∃ n, radix accepts (a :: b :: text) = .fail .malformedNumber n) ∨
       part ≠ [] ∧ a :: b :: (part ++ bigSuffix rest) <+: a :: b :: text ∧
        radix accepts (a :: b :: text) =
          { length := (a :: b :: (part ++ bigSuffix rest)).length }) := by
  obtain ⟨part, rest, rfl, hcount, hlongest⟩ := exists_isLongest accepts hunderscore text
  refine ⟨part, rest, rfl, hlongest, ?_⟩
  have hafter : ((a :: b :: (part ++ rest)).drop (2 + part.length)) = rest := by
    rw [Nat.add_comm]
    simp
  have hsuffix : optional (· == 'n') rest = (bigSuffix rest).length ∧ bigSuffix rest <+: rest := by
    cases rest with
    | nil => exact ⟨rfl, List.nil_prefix⟩
    | cons c rest => by_cases hc : c = 'n' <;> simp [optional, bigSuffix, hc]
  simp only [radix, List.drop_succ_cons, List.drop_zero, hcount, hafter, hsuffix.1]
  by_cases hnil : part = []
  · exact Or.inl ⟨hnil, _, if_pos (by simp [hnil])⟩
  · refine Or.inr ⟨hnil, ?_, ?_⟩
    · simpa using hsuffix.2
    · rw [if_neg (by simpa using hnil)]
      simp
      omega

/-! ## Underscores -/

/-- The digits that a number is written with. -/
def digitsOf : Text → Char → Bool
  | '0' :: letter :: _ => (radixes.lookup letter).getD isDigit
  | _ => isDigit

theorem MantissaOf.separated {whole rest body left : Text} (h : MantissaOf whole rest body left)
    (hwhole : Separated isDigit whole) : Separated isDigit body := by
  cases h with
  | integer => exact hwhole
  | bigInteger => exact hwhole.append (separated_of_not_mem (by simp))
  | @fraction part _ hlongest =>
    have hdot : Separated isDigit ['.'] := separated_of_not_mem (by simp)
    exact hwhole.append (hdot.append hlongest.separated)

theorem ExponentOf.separated (h : ExponentOf text part) : Separated isDigit part := by
  cases h with
  | absent => exact separated_of_not_mem (by simp)
  | @present mark sign rest part hmarked hsigned hfilled hlongest =>
    have hfront : '_' ∉ mark :: sign := by
      simp only [List.mem_cons, List.not_mem_nil, or_false] at hmarked hsigned
      rcases hmarked with rfl | rfl <;> rcases hsigned with rfl | rfl | rfl <;> decide
    exact (separated_of_not_mem hfront).append hlongest.separated

theorem DecimalOf.separated {whole rest body : Text} (h : DecimalOf whole rest body)
    (hwhole : Separated isDigit whole) : Separated isDigit body := by
  cases h with
  | point => exact hwhole.append (separated_of_not_mem (by simp))
  | plain _ hmantissa hexponent => exact (hmantissa.separated hwhole).append hexponent.separated

theorem lexeme_of_starts {body : Text} (h : body <+: text) :
    Scan.lexeme { length := body.length } text = body :=
  (List.prefix_iff_eq_take.1 h).symm

theorem separated_decimal (h : (decimal text).fault = none) :
    Separated isDigit ((decimal text).lexeme text) := by
  obtain ⟨whole, rest, htext, hlongest, hdecimal⟩ := exists_decimalOf text
  rcases hdecimal with ⟨_, n, hfail⟩ | ⟨body, hbody, hstarts, hread⟩
  · rw [hfail] at h
    cases h
  · rw [hread, lexeme_of_starts hstarts]
    exact hbody.separated hlongest.separated

theorem separated_radix {a b : Char} (hunderscore : accepts '_' = false) (ha : a ≠ '_')
    (hb : b ≠ '_') (h : (radix accepts (a :: b :: text)).fault = none) :
    Separated accepts ((radix accepts (a :: b :: text)).lexeme (a :: b :: text)) := by
  obtain ⟨part, rest, rfl, hlongest, hradix⟩ := radix_eq hunderscore a b text
  rcases hradix with ⟨_, n, hfail⟩ | ⟨_, hstarts, hread⟩
  · rw [hfail] at h
    cases h
  · rw [hread, lexeme_of_starts hstarts]
    have hfront : Separated accepts [a, b] := separated_of_not_mem (by simp [ha.symm, hb.symm])
    have hsuffix : Separated accepts (bigSuffix rest) := by
      apply separated_of_not_mem
      unfold bigSuffix
      split <;> simp
    exact hfront.append (hlongest.separated.append hsuffix)

theorem digitsOf_of_startsDecimal (h : startsDecimal text = true) (hpart : part <+: text) :
    digitsOf part = isDigit := by
  unfold digitsOf
  split
  · next letter rest =>
    obtain ⟨tail, rfl⟩ := hpart
    have hnone : radixDigits? letter = none := by
      simpa [startsDecimal] using h
    rw [← radixDigits?_eq_lookup, hnone, Option.getD_none]
  · rfl

/-- The underscores of a number stand between digits of its radix. -/
theorem separated_number? {scanned : Scan} (h : number? text = some scanned)
    (hfault : scanned.fault = none) :
    Separated (digitsOf (scanned.lexeme text)) (scanned.lexeme text) := by
  rcases number?_cases h with ⟨letter, rest, accepts, rfl, hletter, rfl⟩ | ⟨hstart, rfl⟩
  · obtain ⟨hne, hunderscore⟩ := not_accepts_underscore hletter
    have hdigits : digitsOf ((radix accepts ('0' :: letter :: rest)).lexeme
        ('0' :: letter :: rest)) = accepts := by
      have htwo := two_le_length_radix accepts ('0' :: letter :: rest)
      obtain ⟨n, hn⟩ := Nat.exists_eq_add_of_le' htwo
      simp [Scan.lexeme, hn, digitsOf, ← radixDigits?_eq_lookup, hletter]
    rw [hdigits]
    exact separated_radix hunderscore (by decide) hne hfault
  · have hstarts : (decimal text).lexeme text <+: text := List.take_prefix _ _
    rw [digitsOf_of_startsDecimal hstart hstarts]
    exact separated_decimal hfault

/-! ## Number tokens -/

/-- Neither a blank nor a comment nor another literal starts with the first character of a
number. -/
theorem plain_of_number? {c : Char} {scanned : Scan} (h : number? (c :: text) = some scanned) :
    isBlank c = false ∧ isQuote c = false ∧ c ∉ ['`', '/', '<', '-'] := by
  have hstart : c = '.' ∨ isDigit c = true := by
    rcases number?_cases h with ⟨letter, rest, accepts, htext, _⟩ | ⟨hstart, _⟩
    · obtain ⟨rfl, _⟩ := List.cons.inj htext
      exact Or.inr rfl
    · by_cases hc : c = '.'
      · exact Or.inl hc
      · exact Or.inr (isDigit_of_startsDecimal hstart hc)
  rcases hstart with rfl | hdigit
  · decide
  have hbreak : ¬ (isBlank c = true ∨ isOperator c = true) := by
    intro hc
    have hword : isWordBreak c = true := by simpa [isWordBreak] using hc
    rw [(not_alphanumeric_of_isWordBreak hword).2.1] at hdigit
    cases hdigit
  refine ⟨?_, ?_, ?_⟩
  · simpa using fun hc => hbreak (Or.inl hc)
  · simpa using fun hc => hbreak (Or.inr (isOperator_of_isQuote hc))
  · intro hc
    refine hbreak (Or.inr ?_)
    simp only [List.mem_cons, List.not_mem_nil, or_false] at hc
    rcases hc with rfl | rfl | rfl | rfl <;> rfl

theorem startsDecimal_of_no_radix {c : Char} (hc : isDigit c = true)
    (h : c = '0' → ∀ letter ∈ text.head?, radixDigits? letter = none) :
    startsDecimal (c :: text) = true := by
  unfold startsDecimal
  split
  · next letter rest heq =>
    obtain ⟨rfl, rfl⟩ := List.cons.inj heq
    rw [h rfl letter rfl, Option.isNone_none]
  · next heq =>
    obtain ⟨rfl, _⟩ := List.cons.inj heq
    cases hc
  · next heq =>
    obtain ⟨rfl, _⟩ := List.cons.inj heq
    exact hc
  · next heq => cases heq

theorem scan_of_number? {scanned : Scan} (h : number? text = some scanned) (slash : Slash)
    (atLineStart : Bool) : scan slash atLineStart text = (.number, scanned) := by
  cases text with
  | nil => cases h
  | cons c text =>
    obtain ⟨hblank, hquote, hc⟩ := plain_of_number? h
    simp only [List.mem_cons, List.not_mem_nil, or_false, not_or] at hc
    have hcomment : startsLineComment atLineStart (c :: text) = false ∧
        startsBlockComment (c :: text) = false := by
      simp [startsLineComment, startsBlockComment, List.isPrefixOf, Ne.symm hc.2.1,
        Ne.symm hc.2.2.1, Ne.symm hc.2.2.2]
    simp [scan, significant, hblank, hquote, hcomment, hc, h]

theorem punctuatorOrWord_ne_number (text : Text) : (punctuatorOrWord text).1 ≠ .number := by
  unfold punctuatorOrWord wordKind
  split
  · simp
  · dsimp only
    split <;> simp

/-- Only a text that starts like a number is scanned as one. -/
theorem number?_of_scan {slash : Slash} {atLineStart : Bool} {scanned : Scan}
    (h : scan slash atLineStart text = (.number, scanned)) : number? text = some scanned := by
  cases hnumber : number? text with
  | some other =>
    rw [scan_of_number? hnumber] at h
    rw [(Prod.mk.inj h).2]
  | none =>
    cases text with
    | nil => cases h
    | cons c text =>
      have hword := punctuatorOrWord_ne_number (c :: text)
      rw [scan, significant, hnumber] at h
      dsimp only at h
      split_ifs at h <;> simp_all

end Lexeme

/-! ## Where a number starts -/

namespace Code

/-- A zero and the letter of a radix stand here. -/
structure StartsRadix (code : Code) (offset : Nat) (letter : Char) (accepts : Char → Bool) :
    Prop where
  zero : code.peek offset = some '0'
  mark : code.peek (offset + 1) = some letter
  digits : Lexeme.radixes.lookup letter = some accepts

/-- A digit stands here, or a dot and a digit, and no number with a radix starts. -/
structure StartsDecimal (code : Code) (offset : Nat) : Prop where
  digit : (code.peek offset).any isDigit = true ∨
    code.peek offset = some '.' ∧ (code.peek (offset + 1)).any isDigit = true
  noRadix : ∀ letter accepts, ¬ code.StartsRadix offset letter accepts

theorem StartsRadix.exists_stands {source : Text} {offset : Nat} {letter : Char}
    {accepts : Char → Bool} (h : StartsRadix source.bytes offset letter accepts) :
    ∃ text, Stands source offset ('0' :: letter :: text) := by
  obtain ⟨tail, hstands⟩ := Stands.of_peek rfl h.zero
  have hnext : Stands source (offset + 1) tail := hstands.tail
  have hradix : Lexeme.radixDigits? letter = some accepts := by
    rw [Lexeme.radixDigits?_eq_lookup, h.digits]
  have hascii := asciiOnly_isRegexFlag letter (Lexeme.radixDigits?_cases hradix).1
  obtain ⟨text, rfl⟩ := List.head?_eq_some_iff.1 ((hnext.peek_eq_some_iff hascii).1 h.mark)
  exact ⟨text, hstands⟩

theorem StartsDecimal.exists_stands {source : Text} {offset : Nat}
    (h : StartsDecimal source.bytes offset) :
    ∃ ahead, Stands source offset ahead ∧ Lexeme.startsDecimal ahead = true := by
  rcases h.digit with hdigit | ⟨hdot, hdigit⟩
  · obtain ⟨c, hpeek, hc⟩ := (Option.any_eq_true _ _).1 hdigit
    obtain ⟨tail, hstands⟩ := Stands.of_peek (asciiOnly_isDigit c hc) hpeek
    refine ⟨_, hstands, Lexeme.startsDecimal_of_no_radix hc ?_⟩
    rintro rfl letter hletter
    cases hradix : Lexeme.radixDigits? letter with
    | none => rfl
    | some accepts =>
      have hnext : Stands source (offset + 1) tail := hstands.tail
      have hascii := asciiOnly_isRegexFlag letter (Lexeme.radixDigits?_cases hradix).1
      have hmark := (hnext.peek_eq_some_iff hascii).2 hletter
      refine absurd ⟨hpeek, hmark, ?_⟩ (h.noRadix letter accepts)
      rw [← Lexeme.radixDigits?_eq_lookup, hradix]
  · obtain ⟨tail, hstands⟩ := Stands.of_peek rfl hdot
    have hnext : Stands source (offset + 1) tail := hstands.tail
    rw [hnext.peek_any asciiOnly_isDigit] at hdigit
    cases tail with
    | nil => cases hdigit
    | cons c tail => exact ⟨_, hstands, hdigit⟩

end Code

/-! ## One call of the lexer -/

namespace Lexer

/-- The next token is a number with this text. -/
def ReadsNumber (lexer : Lexer) (slash : Slash) (text : Text) : Prop :=
  ∃ token, (lexer.next slash).1 = .ok token ∧ token.kind = .number ∧
    token.start = lexer.offset ∧ token.text = text

/-- The next token is a number that cannot be read, and the error names its start. -/
def FindsMalformed (lexer : Lexer) (slash : Slash) : Prop :=
  (lexer.next slash).1 =
    .error { kind := .malformedNumber, position := Position.resolve lexer.source lexer.offset }

variable {lexer : Lexer} {slash : Slash}

theorem findsMalformed_of_number? {n : Nat}
    (h : Lexeme.number? lexer.rest = some (.fail .malformedNumber n)) :
    lexer.FindsMalformed slash := by
  have hpeek : lexer.peek slash = (.number, .fail .malformedNumber n) :=
    Lexeme.scan_of_number? h _ _
  rw [FindsMalformed, next_of_fault hpeek rfl]
  simp [errorAt]

theorem readsNumber_of_number? {body : Text} (hstarts : body <+: lexer.rest)
    (h : Lexeme.number? lexer.rest = some { length := body.length }) :
    lexer.ReadsNumber slash body := by
  have hpeek : lexer.peek slash = (.number, { length := body.length }) :=
    Lexeme.scan_of_number? h _ _
  rw [ReadsNumber, next_of_fault_none hpeek rfl]
  exact ⟨_, rfl, rfl, rfl, Lexeme.lexeme_of_starts hstarts⟩

theorem ReadsNumber.not_findsMalformed {text : Text} (h : lexer.ReadsNumber slash text) :
    ¬ lexer.FindsMalformed slash := by
  obtain ⟨token, htoken, _⟩ := h
  rw [FindsMalformed, htoken]
  simp

/-- A decimal number is read as its grammar says. -/
theorem next_decimal (slash : Slash) (h : Lexeme.startsDecimal lexer.rest = true) :
    ∃ whole rest, lexer.rest = whole ++ rest ∧ Lexeme.IsLongest isDigit lexer.rest whole ∧
      (lexer.FindsMalformed slash ↔ Lexeme.IsMalformed whole rest) ∧
      (¬ Lexeme.IsMalformed whole rest →
        ∃ text, Lexeme.DecimalOf whole rest text ∧ lexer.ReadsNumber slash text) := by
  have hnumber := Lexeme.number?_of_startsDecimal h
  obtain ⟨whole, rest, htext, hlongest, houtcome⟩ := Lexeme.exists_decimalOf lexer.rest
  refine ⟨whole, rest, htext, hlongest, ?_⟩
  rcases houtcome with ⟨hbad, n, hscan⟩ | ⟨body, hbody, hstarts, hscan⟩
  · rw [hscan] at hnumber
    exact ⟨⟨fun _ => hbad, fun _ => findsMalformed_of_number? hnumber⟩,
      fun hgood => absurd hbad hgood⟩
  · rw [hscan] at hnumber
    have hreads : lexer.ReadsNumber slash body := readsNumber_of_number? hstarts hnumber
    exact ⟨⟨fun herror => absurd herror hreads.not_findsMalformed,
      fun hbad => absurd hbad hbody.not_isMalformed⟩, fun _ => ⟨body, hbody, hreads⟩⟩

/-- So is a number with a radix. -/
theorem next_radix (slash : Slash) {letter : Char} {accepts : Char → Bool} {text : Text}
    (h : Lexeme.radixDigits? letter = some accepts) (htext : lexer.rest = '0' :: letter :: text) :
    ∃ part rest, text = part ++ rest ∧ Lexeme.IsLongest accepts text part ∧
      (part = [] ∧ lexer.FindsMalformed slash ∨
       part ≠ [] ∧ lexer.ReadsNumber slash ('0' :: letter :: (part ++ Lexeme.bigSuffix rest))) := by
  have hnumber : Lexeme.number? lexer.rest = some (Lexeme.radix accepts lexer.rest) := by
    simp [htext, Lexeme.number?, h]
  obtain ⟨part, rest, rfl, hlongest, houtcome⟩ :=
    Lexeme.radix_eq (Lexeme.not_accepts_underscore h).2 '0' letter text
  rw [← htext] at houtcome
  refine ⟨part, rest, rfl, hlongest, ?_⟩
  rcases houtcome with ⟨hnil, n, hscan⟩ | ⟨hfilled, hstarts, hscan⟩
  · rw [hscan] at hnumber
    exact Or.inl ⟨hnil, findsMalformed_of_number? hnumber⟩
  · rw [hscan] at hnumber
    exact Or.inr ⟨hfilled, readsNumber_of_number? hstarts hnumber⟩

theorem separated_of_next {token : Token} (h : (lexer.next slash).1 = .ok token)
    (hkind : token.kind = .number) :
    Lexeme.Separated (Lexeme.digitsOf token.text) token.text := by
  obtain ⟨kind, scanned, hscan, hfault, rfl, _⟩ :=
    exists_scan_of_next (Prod.ext h (Eq.refl (lexer.next slash).2))
  obtain rfl : kind = .number := hkind
  exact Lexeme.separated_number? (Lexeme.number?_of_scan hscan) hfault

end Lexer

/-! ## The law -/

open Lexeme in
/-- A lexer that is set down where a number starts reads it by its grammar. In a decimal number the
first numeral is the longest one, and the dots behind it decide what belongs to the number; it is
malformed with three of them or more, and if the mark of an exponent has no exponent behind it. A
number with a radix needs a numeral of that radix behind its letter, and takes the longest one. An
error names the start of the number. In every number that is read, each underscore stands between
two digits of its radix. -/
theorem numbers_are_read_by_their_grammar (source : Text) (offset : Nat) (margin : Margin)
    (slash : Slash) :
    let code : Code := source.bytes
    let ahead := Text.dropBytes offset source
    let lexer : Lexer := { source, offset, rest := ahead, margin }
    (code.StartsDecimal offset → ∃ whole rest, ahead = whole ++ rest ∧
      IsLongest isDigit ahead whole ∧
      (lexer.FindsMalformed slash ↔ IsMalformed whole rest) ∧
      (¬ IsMalformed whole rest →
        ∃ text, DecimalOf whole rest text ∧ lexer.ReadsNumber slash text)) ∧
    (∀ letter accepts, code.StartsRadix offset letter accepts → ∃ part rest,
      ahead = '0' :: letter :: (part ++ rest) ∧ IsLongest accepts (part ++ rest) part ∧
      ((∃ text, lexer.ReadsNumber slash text) ↔
        ∃ numeral, IsNumeral accepts numeral ∧ numeral <+: part ++ rest) ∧
      ((∃ text, lexer.ReadsNumber slash text) →
        lexer.ReadsNumber slash ('0' :: letter :: (part ++ bigSuffix rest))) ∧
      ((¬ ∃ text, lexer.ReadsNumber slash text) → lexer.FindsMalformed slash)) ∧
    (∀ token, (lexer.next slash).1 = .ok token → token.kind = .number →
      Separated (digitsOf token.text) token.text) := by
  intro code ahead lexer
  refine ⟨fun hstart => ?_, fun letter accepts hstart => ?_, fun token => Lexer.separated_of_next⟩
  · obtain ⟨text, hstands, hdecimal⟩ := hstart.exists_stands
    obtain rfl : ahead = text := hstands.dropBytes_eq
    exact lexer.next_decimal slash hdecimal
  · obtain ⟨text, hstands⟩ := hstart.exists_stands
    have htext : ahead = '0' :: letter :: text := hstands.dropBytes_eq
    have hdigits : radixDigits? letter = some accepts := by
      rw [radixDigits?_eq_lookup, hstart.digits]
    obtain ⟨part, rest, rfl, hlongest, houtcome⟩ := lexer.next_radix slash hdigits htext
    refine ⟨part, rest, htext, hlongest, ?_⟩
    rw [← hlongest.ne_nil_iff]
    rcases houtcome with ⟨hnil, herror⟩ | ⟨hfilled, hreads⟩
    · have hnone : ¬ ∃ body, lexer.ReadsNumber slash body :=
        fun ⟨body, hbody⟩ => hbody.not_findsMalformed herror
      exact ⟨⟨fun hreads => absurd hreads hnone, fun hfilled => absurd hnil hfilled⟩,
        fun hreads => absurd hreads hnone, fun _ => herror⟩
    · exact ⟨⟨fun _ => hfilled, fun _ => ⟨_, hreads⟩⟩, fun _ => hreads,
        fun hnone => absurd ⟨_, hreads⟩ hnone⟩

/-- A number with a fraction, an exponent and underscores, one of them left behind, and an octal
number that ends before a digit of another radix. -/
theorem number_with_underscores_and_an_octal_one :
    let source : Text := "é=1_0.2_5e-1_0_;0o7_8".toList
    Code.StartsDecimal source.bytes 3 ∧ Code.StartsRadix source.bytes 17 'o' isOctalDigit ∧
      (∃ whole rest, Lexeme.DecimalOf whole rest "1_0.2_5e-1_0".toList) ∧
      ∃ part rest, Text.dropBytes 17 source = '0' :: 'o' :: (part ++ rest) ∧
        Lexeme.IsLongest isOctalDigit (part ++ rest) part ∧
        '0' :: 'o' :: (part ++ Lexeme.bigSuffix rest) = "0o7".toList := by
  intro source
  have hdecimal : Code.StartsDecimal source.bytes 3 := by
    refine ⟨Or.inl (by decide +kernel), fun letter accepts hradix => ?_⟩
    exact absurd hradix.zero (by decide +kernel)
  have hradix : Code.StartsRadix source.bytes 17 'o' isOctalDigit :=
    ⟨by decide +kernel, by decide +kernel, rfl⟩
  have hfirst : ((Lexer.mk source 3 (Text.dropBytes 3 source) .inline).next .division).1 =
      .ok ⟨.number, "1_0.2_5e-1_0".toList, 3, false⟩ := eq_ok_of_toOption (by decide +kernel)
  have hsecond : ((Lexer.mk source 17 (Text.dropBytes 17 source) .inline).next .division).1 =
      .ok ⟨.number, "0o7".toList, 17, false⟩ := eq_ok_of_toOption (by decide +kernel)
  obtain ⟨hplain, _, _⟩ := numbers_are_read_by_their_grammar source 3 .inline .division
  obtain ⟨_, hoctal, _⟩ := numbers_are_read_by_their_grammar source 17 .inline .division
  refine ⟨hdecimal, hradix, ?_, ?_⟩
  · obtain ⟨whole, rest, _, _, hmalformed, hgood⟩ := hplain hdecimal
    have hreads : (Lexer.mk source 3 (Text.dropBytes 3 source) .inline).ReadsNumber .division
        "1_0.2_5e-1_0".toList := ⟨_, hfirst, rfl, rfl, rfl⟩
    have hsound : ¬ Lexeme.IsMalformed whole rest :=
      fun hbad => hreads.not_findsMalformed (hmalformed.2 hbad)
    obtain ⟨text, hnumber, token, htoken, _, _, rfl⟩ := hgood hsound
    rw [hfirst] at htoken
    rw [← Except.ok.inj htoken] at hnumber
    exact ⟨whole, rest, hnumber⟩
  · obtain ⟨part, rest, hahead, hlongest, _, hreads, _⟩ := hoctal 'o' isOctalDigit hradix
    obtain ⟨token, htoken, _, _, htext⟩ := hreads ⟨_, _, hsecond, rfl, rfl, rfl⟩
    rw [hsecond] at htoken
    refine ⟨part, rest, hahead, hlongest, ?_⟩
    rw [← htext, ← Except.ok.inj htoken]

end ScriptMinifier
