-- Tokens and their spelling. Operators and words are told apart by tables, and everything else by
-- how it starts. Here the tables fit together: a punctuator is the longest that can be read, a word
-- goes on as far as it can, and no other token is spelled like an operator or a keyword.
import ScriptMinifier.Proofs.Boundaries
import ScriptMinifier.Proofs.Gaps
import ScriptMinifier.Proofs.Lookahead
import ScriptMinifier.Proofs.Regexes

namespace ScriptMinifier

open Character

/-! ## The longest mark -/

/-- The punctuator that the text starts with, if several would do the longest of them. -/
structure IsLongestMark (text mark : Text) : Prop where
  mem : mark ∈ punctuators
  starts : mark <+: text
  longest : ∀ other ∈ punctuators, other <+: text → other.length ≤ mark.length

theorem IsLongestMark.unique {text mark other : Text} (h : IsLongestMark text mark)
    (hother : IsLongestMark text other) : mark = other := by
  have hlength : mark.length = other.length :=
    Nat.le_antisymm (hother.longest mark h.mem h.starts) (h.longest other hother.mem hother.starts)
  rw [List.prefix_iff_eq_take.1 h.starts, List.prefix_iff_eq_take.1 hother.starts, hlength]

namespace Lexeme

/-- The lengths that are tried, the longest first. -/
theorem longestPunctuator?_eq (text : Text) :
    longestPunctuator? text =
      ([4, 3, 2, 1].find? fun n => punctuators.contains (text.take n)).map text.take := by
  rw [longestPunctuator?, List.find?_map]
  rfl

theorem length_mem_of_mem_punctuators {mark : Text} (h : mark ∈ punctuators) :
    mark.length ∈ [4, 3, 2, 1] := by
  revert mark
  decide +kernel

theorem isLongestMark_of_longestPunctuator? {text mark : Text}
    (h : longestPunctuator? text = some mark) : IsLongestMark text mark := by
  rw [longestPunctuator?_eq] at h
  obtain ⟨n, hn, rfl⟩ := Option.map_eq_some_iff.1 h
  obtain ⟨hmem, longer, shorter, hlengths, hlonger⟩ := List.find?_eq_some_iff_append.1 hn
  refine ⟨by simpa using hmem, List.take_prefix _ _, ?_⟩
  intro other hother hstarts
  by_contra hlt
  have htake := List.prefix_iff_eq_take.1 hstarts
  have hle := hstarts.length_le
  rw [List.length_take] at hlt
  -- A longer mark has a length that was tried before.
  have hbefore : other.length ∈ longer := by
    have htried := length_mem_of_mem_punctuators hother
    have hsorted : ([4, 3, 2, 1] : List Nat).Pairwise (· > ·) := by decide
    rw [hlengths] at htried hsorted
    rcases List.mem_append.1 htried with hmem | hmem
    · exact hmem
    · rcases List.mem_cons.1 hmem with heq | hmem
      · omega
      · have := List.rel_of_pairwise_cons (List.pairwise_append.1 hsorted).2.1 hmem
        omega
  have hrejected := hlonger _ hbefore
  rw [← htake] at hrejected
  simp [hother] at hrejected

theorem longestPunctuator?_eq_some_iff (text mark : Text) :
    longestPunctuator? text = some mark ↔ IsLongestMark text mark := by
  constructor
  · exact isLongestMark_of_longestPunctuator?
  · intro h
    cases hfound : longestPunctuator? text with
    | none =>
      rw [longestPunctuator?_eq, Option.map_eq_none_iff] at hfound
      have hrejected := List.find?_eq_none.1 hfound _ (length_mem_of_mem_punctuators h.mem)
      rw [← List.prefix_iff_eq_take.1 h.starts] at hrejected
      simp [h.mem] at hrejected
    | some other => rw [(isLongestMark_of_longestPunctuator? hfound).unique h]

end Lexeme

/-! ## What a scan can be -/

namespace Lexeme

/-- The marks that start a comment. -/
def commentMarks : List Text := [['/', '*'], ['/', '/'], ['<', '!', '-', '-'], ['-', '-', '>']]

/-- What is scanned at a character, with the text behind it. -/
inductive ScansAs (c : Char) (text : Text) : TokenKind → Scan → Prop where
  | blanks {kind : TokenKind} (blank : isBlank c = true) (run : kind = .lineBreak ∨ kind = .blank) :
      ScansAs c text kind (blanks (c :: text))
  | blockComment (starts : ['/', '*'] <+: c :: text) :
      ScansAs c text .blockComment (blockComment (c :: text))
  | lineComment {mark : Text} (mem : mark ∈ commentMarks)
      (starts : mark <+: c :: text) : ScansAs c text .lineComment (lineComment (c :: text))
  | string (quote : isQuote c = true) : ScansAs c text .string (quoted (c :: text))
  | template (backtick : c = '`') : ScansAs c text .template (template (c :: text))
  | regex (slash : c = '/') : ScansAs c text .regex (regex (c :: text))
  | number {found : Scan} (number : number? (c :: text) = some found) :
      ScansAs c text .number found
  | punctuator {mark : Text} (longest : longestPunctuator? (c :: text) = some mark) :
      ScansAs c text .punctuator { length := punctuatorLength mark (c :: text) }
  | word (blank : isBlank c = false) (starts : startsWord c = true) :
      ScansAs c text (wordKind (c :: text.takeWhile fun c => !isWordBreak c))
        { length := (c :: text.takeWhile fun c => !isWordBreak c).length }

theorem scansAs_significant (slash : Slash) {c : Char} (hblank : isBlank c = false) (text : Text) :
    ScansAs c text (significant slash (c :: text)).1 (significant slash (c :: text)).2 := by
  cases hword : startsWord c with
  | true =>
    rw [significant_of_startsWord hword]
    exact .word hblank hword
  | false =>
    rw [significant]
    split
    · next hquote => exact .string hquote
    next hquote =>
    split
    · next htick => exact .template (by simpa using htick)
    next htick =>
    split
    · next hslash => exact .regex (by simpa using (Bool.and_eq_true_iff.1 hslash).1)
    split
    · next hnumber => exact .number hnumber
    next hnumber =>
    unfold punctuatorOrWord
    split
    · next hmark => exact .punctuator hmark
    · next hmark =>
      -- An operator that starts no literal is a punctuator by itself, so this never happens.
      exfalso
      have hdigit : isDigit c = false := by
        by_contra hdigit
        have hsome := number?_isSome_of_isDigit text (by simpa using hdigit)
        rw [hnumber] at hsome
        cases hsome
      have hoperator : isOperator c = true := by simpa [startsWord, hdigit] using hword
      have hmem := mem_punctuators_of_isOperator hoperator (by simpa using hquote)
        (by simpa using htick)
      exact longestPunctuator?_of_mem text hmem hmark

theorem scansAs_scan (slash : Slash) (atLineStart : Bool) (c : Char) (text : Text) :
    ScansAs c text (scan slash atLineStart (c :: text)).1
      (scan slash atLineStart (c :: text)).2 := by
  rw [scan]
  split
  · next hblank =>
    refine .blanks hblank ?_
    dsimp only
    split
    · exact Or.inl rfl
    · exact Or.inr rfl
  next hblank =>
  split
  · next hstarts => exact .blockComment (List.isPrefixOf_iff_prefix.1 hstarts)
  split
  · next hstarts =>
    simp only [startsLineComment, Bool.or_eq_true, Bool.and_eq_true, List.isPrefixOf_iff_prefix]
      at hstarts
    rcases hstarts with (hstarts | hstarts) | ⟨_, hstarts⟩
    · exact .lineComment (by simp [commentMarks]) hstarts
    · exact .lineComment (by simp [commentMarks]) hstarts
    · exact .lineComment (by simp [commentMarks]) hstarts
  · exact scansAs_significant slash (by simpa using hblank) text

/-! ## Spellings of literals and comments -/

theorem lexeme_cons {found : Scan} (h : 0 < found.length) (c : Char) (text : Text) :
    found.lexeme (c :: text) = c :: text.take (found.length - 1) := by
  obtain ⟨n, hn⟩ := Nat.exists_eq_add_of_le' h
  rw [Scan.lexeme, hn, List.take_succ_cons, Nat.add_sub_cancel]

/-- A regular expression ends with a slash and flags. -/
theorem slash_mem_regexFrom {inClass : Bool} {read : Nat} {text : Text}
    (h : (regexFrom inClass read text).fault = none) :
    '/' ∈ text.take ((regexFrom inClass read text).length - read) := by
  fun_induction regexFrom inClass read text with
  | case1 | case2 | case3 | case6 => cases h
  | case4 inClass read c text hline ih =>
    have hle := le_length_regexFrom inClass (read + 2) text
    have hmem := ih h
    rw [show (regexFrom inClass (read + 2) text).length - read =
      (regexFrom inClass (read + 2) text).length - (read + 2) + 2 by omega]
    simp [hmem]
  | case5 inClass read c text hlast hpair hslash =>
    obtain ⟨rfl, _⟩ : c = '/' ∧ _ := by simpa using hslash
    dsimp only
    rw [Nat.add_assoc, Nat.add_sub_cancel_left, Nat.add_comm]
    simp
  | case7 inClass read c text hlast hpair hslash hline ih =>
    have hle := le_length_regexFrom (inClassAfter inClass c) (read + 1) text
    have hmem := ih h
    rw [show (regexFrom (inClassAfter inClass c) (read + 1) text).length - read =
      (regexFrom (inClassAfter inClass c) (read + 1) text).length - (read + 1) + 1 by omega]
    simp [hmem]

theorem two_le_length_decimal_of_dot {d : Char} (text : Text) (h : isDigit d = true) :
    2 ≤ (decimal ('.' :: d :: text)).length := by
  have hdot : d ≠ '.' := by
    rintro rfl
    cases h
  have hnone : digits isDigit ([] ++ '.' :: d :: text) = ([] : Text).length :=
    digits_of_not_isDigit _ rfl
  have hdecimal : decimal ('.' :: d :: text) = exponent (0 + 1 + digits isDigit (d :: text))
      ((d :: text).drop (digits isDigit (d :: text))) :=
    decimal_of_dot hnone (by simpa using hdot)
  have hdigits := digits_cons_pos text h
  have hle := le_length_exponent (0 + 1 + digits isDigit (d :: text))
    ((d :: text).drop (digits isDigit (d :: text)))
  rw [hdecimal]
  omega

/-- A number has a digit. If it starts with a dot, the digit is behind the dot. -/
theorem any_isDigit_of_number? {c : Char} {text : Text} {found : Scan}
    (h : number? (c :: text) = some found) :
    (found.lexeme (c :: text)).any isDigit = true := by
  by_cases hdigit : isDigit c = true
  · rw [lexeme_cons (length_number?_pos h), List.any_cons, hdigit, Bool.true_or]
  · rcases number?_cases h with ⟨letter, rest, accepts, htext, _⟩ | ⟨hstart, rfl⟩
    · obtain ⟨rfl, _⟩ := List.cons.inj htext
      exact absurd rfl hdigit
    · obtain rfl : c = '.' := by
        by_contra hdot
        exact hdigit (isDigit_of_startsDecimal hstart hdot)
      cases text with
      | nil => cases hstart
      | cons d text =>
        have hle := two_le_length_decimal_of_dot text hstart
        obtain ⟨n, hn⟩ := Nat.exists_eq_add_of_le' hle
        rw [Scan.lexeme, hn]
        simp [show isDigit d = true from hstart]

theorem starts_lineComment {mark text : Text} (hmark : mark ∈ commentMarks) (h : mark <+: text) :
    mark <+: (lineComment text).lexeme text := by
  have hmarks : ∀ mark ∈ commentMarks, (mark.all fun c => !isLineTerminator c) = true := by
    decide +kernel
  have hline := List.all_eq_true.1 (hmarks mark hmark)
  obtain ⟨rest, rfl⟩ := h
  rw [Scan.lexeme, lineComment, take_takeWhile_length, List.takeWhile_append_of_pos hline]
  exact List.prefix_append _ _

theorem starts_blockComment {text : Text} (h : ['/', '*'] <+: text)
    (hfault : (blockComment text).fault = none) :
    ['/', '*'] <+: (blockComment text).lexeme text := by
  unfold blockComment at hfault ⊢
  cases hend : commentEnd? 2 (text.drop 2) with
  | none =>
    rw [hend] at hfault
    cases hfault
  | some n => exact List.prefix_take_iff.2 ⟨h, Nat.le_of_lt (lt_commentEnd? hend)⟩

end Lexeme

/-! ## Listed spellings -/

/-- What all punctuators and keywords have in common. -/
@[mk_iff]
structure IsOrdinary (text : Text) : Prop where
  plain : (text.any fun c => isBlank c || Lexeme.isQuote c || c == '`' || isDigit c) = false
  noComment : ∀ mark ∈ Lexeme.commentMarks, ¬ mark <+: text
  noRegex : text.head? = some '/' → '/' ∉ text.tail

instance (text : Text) : Decidable (IsOrdinary text) :=
  decidable_of_iff' _ (isOrdinary_iff text)

theorem IsOrdinary.eq_false {text : Text} (h : IsOrdinary text) {c : Char} (hc : c ∈ text) :
    isBlank c = false ∧ Lexeme.isQuote c = false ∧ c ≠ '`' ∧ isDigit c = false := by
  have hplain := List.any_eq_false.1 h.plain c hc
  simp only [Bool.or_eq_true, beq_iff_eq, not_or, Bool.not_eq_true] at hplain
  obtain ⟨⟨⟨hblank, hquote⟩, htick⟩, hdigit⟩ := hplain
  exact ⟨hblank, hquote, htick, hdigit⟩

theorem isOrdinary_of_mem {text : Text} (h : text ∈ punctuators ++ keywords) :
    IsOrdinary text := by
  have hlisted : ∀ text ∈ punctuators ++ keywords, IsOrdinary text := by decide +kernel
  exact hlisted text h

/-- A spelling with a class of its own is a punctuator or a keyword. -/
theorem mem_of_mem_table {text : Text} {c : TokenClass} (h : (text, c) ∈ TokenClass.table) :
    text ∈ punctuators ++ keywords := by
  have hwords : ∀ row ∈ wordTable, row.1.toList ∈ keywords := by decide +kernel
  obtain ⟨row, hrow, heq⟩ := List.mem_map.1 h
  cases heq
  rcases List.mem_append.1 hrow with hmark | hword
  · exact List.mem_append_left _ (List.mem_map_of_mem hmark)
  · exact List.mem_append_right _ (hwords row hword)

/-- The first character tells punctuators and keywords apart. -/
theorem startsWord_of_mem_punctuators {c : Char} {text : Text} (h : c :: text ∈ punctuators) :
    Lexeme.startsWord c = false := by
  have hmarks : ∀ mark ∈ punctuators, mark.head?.any Lexeme.startsWord = false := by decide +kernel
  exact hmarks _ h

theorem startsWord_of_mem_keywords {c : Char} {text : Text} (h : c :: text ∈ keywords) :
    Lexeme.startsWord c = true := by
  have hwords : ∀ word ∈ keywords, word.head?.any Lexeme.startsWord = true := by decide +kernel
  exact hwords _ h

namespace Lexeme.ScansAs

variable {c : Char} {text : Text} {kind : TokenKind} {found : Scan}

/-- Everything else gives itself away by a character or a mark. -/
theorem kind_of_isOrdinary (h : ScansAs c text kind found) (hfault : found.fault = none)
    (hpos : 0 < found.length) (hordinary : IsOrdinary (found.lexeme (c :: text))) :
    kind = .punctuator ∨ kind.isWord = true := by
  have hhead : c ∈ found.lexeme (c :: text) := by
    rw [lexeme_cons hpos]
    exact List.mem_cons_self
  obtain ⟨hblank, hquote, htick, _⟩ := hordinary.eq_false hhead
  cases h with
  | blanks hc =>
    rw [hblank] at hc
    cases hc
  | blockComment hstarts =>
    exact absurd (starts_blockComment hstarts hfault)
      (hordinary.noComment _ (by simp [commentMarks]))
  | lineComment hmark hstarts =>
    exact absurd (starts_lineComment hmark hstarts) (hordinary.noComment _ hmark)
  | string hc =>
    rw [hquote] at hc
    cases hc
  | template hc => exact absurd hc htick
  | regex hc =>
    subst hc
    rw [lexeme_cons hpos] at hordinary
    exact absurd (slash_mem_regexFrom hfault) (hordinary.noRegex rfl)
  | number hnumber =>
    obtain ⟨d, hmem, hd⟩ := List.any_eq_true.1 (any_isDigit_of_number? hnumber)
    rw [(hordinary.eq_false hmem).2.2.2] at hd
    cases hd
  | punctuator => exact Or.inl rfl
  | word =>
    refine Or.inr ?_
    unfold wordKind
    split <;> rfl

/-- The longest mark is read, save that a question mark is cut off before a fraction. -/
theorem lexeme_of_punctuator (h : ScansAs c text kind found) (hkind : kind = .punctuator) :
    ∃ mark, IsLongestMark (c :: text) mark ∧ found.lexeme (c :: text) =
      if mark = ['?', '.'] ∧ ((c :: text).drop 2).head?.any isDigit = true then ['?']
      else mark := by
  cases h with
  | punctuator hlongest =>
    rename_i mark
    have hmark := isLongestMark_of_longestPunctuator? hlongest
    refine ⟨mark, hmark, ?_⟩
    obtain ⟨rest, hrest⟩ := hmark.starts
    simp only [Scan.lexeme, punctuatorLength, ← hrest, Bool.and_eq_true, beq_iff_eq]
    split
    · next hcut => rw [hcut.1]; rfl
    · simp
  | word =>
    unfold wordKind at hkind
    split at hkind <;> cases hkind
  | blanks _ hrun => rcases hrun with rfl | rfl <;> cases hkind
  | _ => cases hkind

theorem lexeme_of_isWord (h : ScansAs c text kind found) (hkind : kind.isWord = true) :
    isBlank c = false ∧ startsWord c = true ∧ kind = wordKind (found.lexeme (c :: text)) ∧
      found.lexeme (c :: text) = (c :: text).takeWhile fun c => !isBlank c && !isOperator c := by
  cases h with
  | word hblank hstarts =>
    have hlexeme : Scan.lexeme { length := (c :: text.takeWhile fun c => !isWordBreak c).length }
        (c :: text) = c :: text.takeWhile fun c => !isWordBreak c := by
      rw [Scan.lexeme, List.length_cons, List.take_succ_cons, take_takeWhile_length]
    refine ⟨hblank, hstarts, by rw [hlexeme], ?_⟩
    have hoperator : isOperator c = false := by simp_all [startsWord]
    rw [hlexeme]
    simp [hblank, hoperator, isWordBreak]
  | blanks _ hrun => rcases hrun with rfl | rfl <;> cases hkind
  | _ => cases hkind

theorem kind_eq_punctuator_iff (h : ScansAs c text kind found) (hfault : found.fault = none)
    (hpos : 0 < found.length) :
    kind = .punctuator ↔ found.lexeme (c :: text) ∈ punctuators := by
  constructor
  · intro hkind
    obtain ⟨mark, hmark, hlexeme⟩ := h.lexeme_of_punctuator hkind
    rw [hlexeme]
    split
    · decide +kernel
    · exact hmark.mem
  · intro hmem
    have hordinary := isOrdinary_of_mem (List.mem_append_left keywords hmem)
    rcases h.kind_of_isOrdinary hfault hpos hordinary with hkind | hkind
    · exact hkind
    · rw [lexeme_cons hpos] at hmem
      have hstarts := (h.lexeme_of_isWord hkind).2.1
      rw [startsWord_of_mem_punctuators hmem] at hstarts
      cases hstarts

theorem kind_eq_keyword_iff (h : ScansAs c text kind found) (hfault : found.fault = none)
    (hpos : 0 < found.length) :
    kind = .keyword ↔ found.lexeme (c :: text) ∈ keywords := by
  have hlisted : kind.isWord = true →
      (kind = .keyword ↔ found.lexeme (c :: text) ∈ keywords) := by
    intro hkind
    obtain ⟨_, _, hword, _⟩ := h.lexeme_of_isWord hkind
    rw [hword, wordKind]
    split <;> simp_all
  constructor
  · intro hkind
    exact (hlisted (by rw [hkind]; rfl)).1 hkind
  · intro hmem
    have hordinary := isOrdinary_of_mem (List.mem_append_right punctuators hmem)
    rcases h.kind_of_isOrdinary hfault hpos hordinary with hkind | hkind
    · -- A punctuator starts with an operator, and no keyword does.
      have hmark := (h.kind_eq_punctuator_iff hfault hpos).1 hkind
      rw [lexeme_cons hpos] at hmem hmark
      have hstarts := startsWord_of_mem_keywords hmem
      rw [startsWord_of_mem_punctuators hmark] at hstarts
      cases hstarts
    · exact (hlisted hkind).2 hmem

end Lexeme.ScansAs

/-! ## Words among the bytes -/

/-- A word: the bytes from `start` up to `stop` are all that a blank or an operator leaves, and the
first of them is not a digit. -/
structure Code.IsWord (code : Code) (start stop : Nat) : Prop where
  filled : start < stop
  run : code.IsRun (fun c => !isBlank c && !isOperator c) start stop
  noDigit : (code.peek start).any isDigit = false

theorem Stands.isWord {source text : Text} {c : Char} {offset : Nat}
    (h : Stands source offset (c :: text)) (hblank : isBlank c = false)
    (hstarts : Lexeme.startsWord c = true) :
    Code.IsWord source.bytes offset (offset +
      Text.byteSize ((c :: text).takeWhile fun c => !isBlank c && !isOperator c)) := by
  simp only [Lexeme.startsWord, Bool.and_eq_true, Bool.not_eq_true'] at hstarts
  obtain ⟨hoperator, hdigit⟩ := hstarts
  have halike : ∀ d c, Alike d c →
      (!isBlank d && !isOperator d) = (!isBlank c && !isOperator c) := by
    intro d c hd
    rw [hd.rejects asciiOnly_isBlank, hd.rejects asciiOnly_isOperator]
  obtain ⟨count, hcount, hrun⟩ := Code.exists_run? (fun c => !isBlank c && !isOperator c)
    (Nat.le.intro h.add_byteSize)
  rw [Lexeme.run?_bytes halike h, Option.some.injEq] at hcount
  refine ⟨?_, hcount ▸ hrun, ?_⟩
  · have := c.utf8Size_pos
    simp [hblank, hoperator]
    omega
  · rw [h.peek_any asciiOnly_isDigit]
    exact hdigit

/-! ## One token -/

/-- The token goes by the name that its spelling asks for. It is read off the text in front of the
lexer, and is as long as it can be. -/
structure Token.IsSpelled (token : Token) (lexer : Lexer) : Prop where
  punctuator : token.kind = .punctuator ↔ token.text ∈ punctuators
  keyword : token.kind = .keyword ↔ token.text ∈ keywords
  longest : token.kind = .punctuator → ∃ mark, IsLongestMark lexer.rest mark ∧ token.text =
    if mark = ['?', '.'] ∧ (lexer.rest.drop 2).head?.any isDigit = true then ['?'] else mark
  word : token.kind.isWord = true → Code.IsWord lexer.source.bytes token.start token.stop

theorem Lexer.IsPlaced.isSpelled {lexer : Lexer} (h : lexer.IsPlaced) {slash : Slash}
    {token : Token} (hnext : (lexer.next slash).1 = .ok token) : token.IsSpelled lexer := by
  obtain ⟨kind, found, hpeek, hfault, rfl, _⟩ := exists_scan_of_next (Prod.ext hnext rfl)
  unfold IsPlaced at h
  rw [peek] at hpeek
  cases hrest : lexer.rest with
  | nil =>
    rw [hrest, Lexeme.scan, Prod.mk.injEq] at hpeek
    obtain ⟨rfl, rfl⟩ := hpeek
    refine ⟨?_, ?_, ?_, ?_⟩
    · simp [tokenAt, Scan.lexeme, punctuators, punctuatorTable]
    · simp [tokenAt, Scan.lexeme, keywords]
    · rintro ⟨⟩
    · rintro ⟨⟩
  | cons c text =>
    rw [hrest] at h hpeek
    have hscan := Lexeme.scansAs_scan slash lexer.isAtLineStart c text
    have hpos := Lexeme.length_scan_pos slash lexer.isAtLineStart c text
    rw [hpeek] at hscan hpos
    refine ⟨?_, ?_, ?_, ?_⟩
    · rw [tokenAt, hrest]
      exact hscan.kind_eq_punctuator_iff hfault hpos
    · rw [tokenAt, hrest]
      exact hscan.kind_eq_keyword_iff hfault hpos
    · rw [tokenAt, hrest]
      exact hscan.lexeme_of_punctuator
    · intro hkind
      obtain ⟨hblank, hstarts, _, hlexeme⟩ := hscan.lexeme_of_isWord hkind
      have hword := h.isWord hblank hstarts
      rw [Token.stop, tokenAt, hrest, hlexeme]
      exact hword

/-- Only punctuators and keywords act as something else than an operand. -/
theorem Token.IsSpelled.kind_of_mem_table {token : Token} {lexer : Lexer}
    (h : token.IsSpelled lexer) {c : TokenClass} (hc : (token.text, c) ∈ TokenClass.table) :
    token.kind = .punctuator ∨ token.kind = .keyword := by
  rcases List.mem_append.1 (mem_of_mem_table hc) with hmark | hword
  · exact Or.inl (h.punctuator.2 hmark)
  · exact Or.inr (h.keyword.2 hword)

/-! ## The law -/

/-- Wherever a lexer comes to stand, the search for a punctuator finds the longest one, as any other
search that does so would, and it finds one at every operator that starts no literal. The token that
is read next, whatever a slash stands for, is called a punctuator or a keyword if and only if it
spells one, is as long as it can be, and is an operand if it is neither. -/
theorem tokens_are_what_they_spell (source : Text) (slashes : List Slash) (slash : Slash) :
    let lexer := (Lexer.ofText source).afterCalls slashes
    (∀ mark, Lexeme.longestPunctuator? lexer.rest = some mark ↔ IsLongestMark lexer.rest mark) ∧
    (∀ search : Text → Option Text,
      (∀ text mark, search text = some mark ↔ IsLongestMark text mark) →
      search = Lexeme.longestPunctuator?) ∧
    (∀ c ∈ lexer.rest.head?, isOperator c = true → Lexeme.isQuote c = false → c ≠ '`' →
      Lexeme.longestPunctuator? lexer.rest ≠ none) ∧
    ∀ token, (lexer.next slash).1 = .ok token → token.IsSpelled lexer ∧
      (token.classOf ≠ .literal → token.kind = .punctuator ∨ token.kind = .keyword) ∧
      ∀ previous, token.classAfter previous ≠ .literal →
        token.kind = .punctuator ∨ token.kind = .keyword := by
  intro lexer
  refine ⟨Lexeme.longestPunctuator?_eq_some_iff lexer.rest, ?_, ?_, ?_⟩
  · intro search hsearch
    funext text
    ext mark
    rw [hsearch, Lexeme.longestPunctuator?_eq_some_iff]
  · intro c hc hoperator hquote htick
    obtain ⟨text, hrest⟩ := List.head?_eq_some_iff.1 hc
    rw [hrest]
    exact Lexeme.longestPunctuator?_of_mem text
      (Lexeme.mem_punctuators_of_isOperator hoperator hquote htick)
  · intro token hnext
    have hplaced := Lexer.isPlaced_afterCalls (Lexer.isPlaced_ofText source) slashes
    have hspelled := hplaced.isSpelled hnext
    refine ⟨hspelled, ?_, ?_⟩
    · intro hclass
      exact hspelled.kind_of_mem_table (TokenClass.mem_table_of_ofText rfl hclass)
    · intro previous hclass
      exact hspelled.kind_of_mem_table (Token.mem_table_of_classAfter rfl hclass)

/-- In `a?.5:newer` the longest mark behind the `a` is `?.`, of which the question mark is read, and
the last word is not cut at its `new`. -/
theorem conditional_before_a_fraction :
    let lexer := (Lexer.ofText "a?.5:newer".toList).afterCalls [.regex]
    let last := lexer.afterCalls [.division, .division, .division]
    (lexer.next .division).1 = .ok ⟨.punctuator, ['?'], 1, false⟩ ∧
    IsLongestMark lexer.rest ['?', '.'] ∧
    (last.next .regex).1 = .ok ⟨.identifier, "newer".toList, 5, false⟩ ∧
    Code.IsWord last.source.bytes 5 10 := by
  intro lexer last
  have hmark : (lexer.next .division).1 = .ok ⟨.punctuator, ['?'], 1, false⟩ :=
    eq_ok_of_toOption (by decide +kernel)
  have hword : (last.next .regex).1 = .ok ⟨.identifier, "newer".toList, 5, false⟩ :=
    eq_ok_of_toOption (by decide +kernel)
  have hlongest := (tokens_are_what_they_spell "a?.5:newer".toList [.regex] .division).1
  obtain ⟨_, _, _, hspelled⟩ := tokens_are_what_they_spell "a?.5:newer".toList
    [.regex, .division, .division, .division] .regex
  exact ⟨hmark, (hlongest _).1 (by decide +kernel), hword, (hspelled _ hword).1.word rfl⟩

end ScriptMinifier
