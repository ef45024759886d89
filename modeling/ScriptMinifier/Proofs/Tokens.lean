-- What the tokens of a script tell about it. They spell it out without a gap, each significant
-- token knows whether a line has ended since the one before it, and the first character of a
-- token tells whether it is a word.
import ScriptMinifier.Proofs.Agreement

namespace ScriptMinifier

open Character

/-! ## The kinds of lexemes -/

namespace Lexeme

/-- The characters that a word starts with. -/
def startsWord (c : Char) : Bool := !isOperator c && !isDigit c

theorem isOperator_of_isQuote {c : Char} (h : isQuote c = true) : isOperator c = true := by
  simp only [isQuote, Bool.or_eq_true, beq_iff_eq] at h
  rcases h with rfl | rfl <;> decide

/-- Every operator character is a punctuator by itself, apart from those that begin a
literal. -/
theorem mem_punctuators_of_isOperator {c : Char} (h : isOperator c = true)
    (hq : isQuote c = false) (hb : c ≠ '`') : [c] ∈ punctuators := by
  have hall : (operators.all fun c =>
      isQuote c || c == '`' || punctuators.contains [c]) = true := by decide +kernel
  have hc := List.all_eq_true.1 hall c (by simpa [isOperator] using h)
  simpa [hq, hb] using hc

theorem isOperator_of_longestPunctuator? {c : Char} {text mark : Text}
    (h : longestPunctuator? (c :: text) = some mark) : isOperator c = true := by
  have hmark : mark ∈ punctuators := by
    have := List.find?_some h
    simpa using this
  have hhead : mark.head? = some c := by
    have := List.mem_of_find?_eq_some h
    simp only [List.map_cons, List.map_nil, List.mem_cons, List.not_mem_nil, or_false] at this
    rcases this with rfl | rfl | rfl | rfl <;> rfl
  have hall : ∀ p ∈ punctuators, p.head?.any isOperator = true := by decide +kernel
  simpa [hhead] using hall mark hmark

theorem isOperator_or_isDigit_of_number? {c : Char} {text : Text} {scan : Scan}
    (h : number? (c :: text) = some scan) : isOperator c = true ∨ isDigit c = true := by
  unfold number? at h
  split at h
  · next heq =>
    obtain ⟨rfl, _⟩ := List.cons.inj heq
    exact Or.inr (by decide)
  · next heq =>
    obtain ⟨rfl, _⟩ := List.cons.inj heq
    exact Or.inl (by decide)
  · next heq =>
    obtain ⟨rfl, rfl⟩ := List.cons.inj heq
    split at h
    · exact Or.inr ‹_›
    · simp at h
  · next heq => simp at heq

theorem number?_isSome_of_isDigit {c : Char} (text : Text) (h : isDigit c = true) :
    (number? (c :: text)).isSome = true := by
  unfold number?
  split
  · split <;> rfl
  · next heq =>
    obtain ⟨rfl, _⟩ := List.cons.inj heq
    simp [isDigit] at h
  · next heq =>
    obtain ⟨rfl, rfl⟩ := List.cons.inj heq
    simp [h]
  · next heq => simp at heq

theorem longestPunctuator?_of_mem {c : Char} (text : Text) (h : [c] ∈ punctuators) :
    longestPunctuator? (c :: text) ≠ none := by
  intro hn
  have := List.find?_eq_none.1 hn [c] (by simp)
  simp [h] at this

/-- A lexeme that is neither a blank nor a comment is significant, and it is a word if it starts
like one. -/
theorem kind_significant (slash : Slash) (c : Char) (text : Text) :
    (significant slash (c :: text)).1.isSignificant = true ∧
      (significant slash (c :: text)).1.isWord = startsWord c := by
  rw [significant]
  split
  · next hq => exact ⟨rfl, by simp [startsWord, isOperator_of_isQuote hq, TokenKind.isWord]⟩
  next hq =>
  split
  · next hb =>
    obtain rfl : c = '`' := by simpa using hb
    have hstart : startsWord '`' = false := by decide
    exact ⟨rfl, hstart.symm⟩
  next hb =>
  split
  · next hs =>
    obtain rfl : c = '/' := by simp_all
    have hstart : startsWord '/' = false := by decide
    exact ⟨rfl, hstart.symm⟩
  split
  · next hn =>
    refine ⟨rfl, ?_⟩
    rcases isOperator_or_isDigit_of_number? hn with h | h <;>
      simp [startsWord, h, TokenKind.isWord]
  next hn =>
  have hdigit : isDigit c = false := by
    cases h : isDigit c
    · rfl
    · simpa [hn] using number?_isSome_of_isDigit text h
  unfold punctuatorOrWord
  split
  · next hl =>
    exact ⟨rfl, by simp [startsWord, isOperator_of_longestPunctuator? hl, TokenKind.isWord]⟩
  · next hl =>
    have hoperator : isOperator c = false := by
      cases h : isOperator c
      · rfl
      · exact absurd hl (longestPunctuator?_of_mem text
          (mem_punctuators_of_isOperator h (by simpa using hq) (by simpa using hb)))
    simp only [startsWord, hoperator, hdigit]
    unfold wordKind
    split <;> exact ⟨rfl, rfl⟩

theorem take_takeWhile_length (p : Char → Bool) (text : Text) :
    text.take (text.takeWhile p).length = text.takeWhile p :=
  (List.prefix_iff_eq_take.1 (List.takeWhile_prefix p)).symm

/-- A run of blanks or a comment passes the line terminators that stand in it. -/
theorem crossesLine_scan {slash : Slash} {atLineStart : Bool} {text : Text}
    (hk : (scan slash atLineStart text).1.isSignificant = false)
    (hf : (scan slash atLineStart text).2.fault = none) :
    (scan slash atLineStart text).2.crossesLine =
      ((scan slash atLineStart text).2.lexeme text).any isLineTerminator := by
  cases text with
  | nil => rfl
  | cons c text =>
    rw [scan] at hk hf ⊢
    by_cases hblank : isBlank c = true
    · simp only [hblank, if_true]
      rw [Scan.lexeme, blanks, take_takeWhile_length]
    · simp only [hblank, Bool.false_eq_true, if_false] at hk hf ⊢
      by_cases hblock : startsBlockComment (c :: text) = true
      · simp only [hblock, if_true] at hf ⊢
        unfold blockComment at hf ⊢
        split
        · rfl
        · next hend =>
          rw [hend] at hf
          cases hf
      · simp only [hblock, Bool.false_eq_true, if_false] at hk hf ⊢
        by_cases hline : startsLineComment atLineStart (c :: text) = true
        · simp only [hline, if_true]
          rw [Scan.lexeme, lineComment, take_takeWhile_length]
          simp only [Bool.false_eq, List.any_eq_false]
          intro d hd
          simpa using List.all_eq_true.1 List.all_takeWhile d hd
        · simp only [hline, Bool.false_eq_true, if_false] at hk
          rw [(kind_significant slash c text).1] at hk
          cases hk

/-- A significant lexeme is a word if it starts like one. -/
theorem isWord_scan {slash : Slash} {atLineStart : Bool} {c : Char} {text : Text}
    (hk : (scan slash atLineStart (c :: text)).1.isSignificant = true) :
    (scan slash atLineStart (c :: text)).1.isWord = startsWord c := by
  rw [scan] at hk ⊢
  by_cases hblank : isBlank c = true
  · simp only [hblank, if_true] at hk
    split at hk <;> cases hk
  · simp only [hblank, Bool.false_eq_true, if_false] at hk ⊢
    by_cases hblock : startsBlockComment (c :: text) = true
    · simp [hblock, TokenKind.isSignificant] at hk
    · simp only [hblock, Bool.false_eq_true, if_false] at hk ⊢
      by_cases hline : startsLineComment atLineStart (c :: text) = true
      · simp [hline, TokenKind.isSignificant] at hk
      · simp only [hline, Bool.false_eq_true, if_false]
        exact (kind_significant slash c text).2

/-- Only the empty text gives the end. -/
theorem kind_scan_ne_endOfInput (slash : Slash) (atLineStart : Bool) (c : Char) (text : Text) :
    (scan slash atLineStart (c :: text)).1 ≠ .endOfInput := by
  intro hend
  rw [scan] at hend
  split at hend
  · dsimp only at hend
    split at hend <;> cases hend
  · split at hend
    · cases hend
    · split at hend
      · cases hend
      · have hs := (kind_significant slash c text).1
        rw [hend] at hs
        cases hs

end Lexeme

/-! ## One step of the lexer -/

namespace Lexer

/-- A line terminator has been read since the last significant token. -/
def isBroken (lexer : Lexer) : Bool := lexer.margin == .broken

section

variable {lexer after : Lexer} {slash : Slash} {token : Token} {kind : TokenKind} {scan : Scan}

theorem next_of_fault_none (hpeek : lexer.peek slash = (kind, scan)) (hfault : scan.fault = none) :
    lexer.next slash = (.ok (lexer.tokenAt kind scan), lexer.skip kind scan) := by
  simp only [next, hpeek, hfault]

theorem next_of_fault {fault : Fault} (hpeek : lexer.peek slash = (kind, scan))
    (hfault : scan.fault = some fault) :
    lexer.next slash = (.error (lexer.errorAt fault), lexer.skip kind scan) := by
  simp only [next, hpeek, hfault]

/-- A token comes from a scan without a fault. -/
theorem exists_scan_of_next (h : lexer.next slash = (.ok token, after)) :
    ∃ kind scan, lexer.peek slash = (kind, scan) ∧ scan.fault = none ∧
      token = lexer.tokenAt kind scan ∧ after = lexer.skip kind scan := by
  rcases hpeek : lexer.peek slash with ⟨kind, scan⟩
  cases hfault : scan.fault with
  | some fault =>
    rw [next_of_fault hpeek hfault] at h
    cases h
  | none =>
    rw [next_of_fault_none hpeek hfault] at h
    obtain ⟨htoken, hafter⟩ := Prod.mk.inj h
    exact ⟨kind, scan, rfl, hfault, (Except.ok.inj htoken).symm, hafter.symm⟩

end

/-- The token is what the lexer takes off the front of its text. -/
structure Takes (lexer : Lexer) (token : Token) (after : Lexer) : Prop where
  spelled : token.text ++ after.rest = lexer.rest
  start : token.start = lexer.offset
  offset : after.offset = lexer.offset + Text.byteSize token.text
  ended : token.kind = .endOfInput → lexer.rest = []
  filled : token.kind ≠ .endOfInput → token.text ≠ []
  word : token.isSignificant = true →
    token.kind.isWord = token.text.head?.any Lexeme.startsWord
  followsBreak : token.isSignificant = true → token.followsBreak = lexer.isBroken
  broken : after.isBroken = (!token.isSignificant &&
    (lexer.isBroken || token.text.any isLineTerminator))

theorem takes_of_next {lexer after : Lexer} {slash : Slash} {token : Token}
    (h : lexer.next slash = (.ok token, after)) : lexer.Takes token after := by
  obtain ⟨kind, scan, hpeek, hf, rfl, rfl⟩ := exists_scan_of_next h
  have hkind : (Lexeme.scan slash lexer.isAtLineStart lexer.rest).1 = kind := by
    rw [← peek, hpeek]
  have hscan : (Lexeme.scan slash lexer.isAtLineStart lexer.rest).2 = scan := by
    rw [← peek, hpeek]
  have hhead : ∀ c text, lexer.rest = c :: text →
      (scan.lexeme (c :: text)).head? = some c := by
    intro c text hr
    have hpos := Lexeme.length_scan_pos slash lexer.isAtLineStart c text
    rw [← hr, hscan] at hpos
    rw [Scan.lexeme, List.head?_take, if_neg (by omega), List.head?_cons]
  refine ⟨scan.lexeme_append_rest lexer.rest, rfl, rfl, ?_, ?_, ?_, ?_, ?_⟩
  · intro hk
    cases hr : lexer.rest with
    | nil => rfl
    | cons c text =>
      rw [hr] at hkind
      exact absurd (hkind.trans hk) (Lexeme.kind_scan_ne_endOfInput slash _ c text)
  · intro hk hnil
    cases hr : lexer.rest with
    | nil =>
      rw [hr, Lexeme.scan] at hkind
      exact hk hkind.symm
    | cons c text =>
      have := hhead c text hr
      rw [← hr, show scan.lexeme lexer.rest = [] from hnil] at this
      cases this
  · intro hs
    cases hr : lexer.rest with
    | nil =>
      rw [hr, Lexeme.scan] at hkind
      subst hkind
      cases hs
    | cons c text =>
      have hword : kind.isWord = Lexeme.startsWord c := by
        rw [← hkind, hr] at hs ⊢
        exact Lexeme.isWord_scan hs
      simp only [tokenAt, hr, hhead c text hr, Option.any_some]
      exact hword
  · intro hs
    simp_all [tokenAt, isBroken, Token.isSignificant]
  · cases hs : kind.isSignificant with
    | true => simp [skip, marginAfter, isBroken, hf, hs, Token.isSignificant, tokenAt]
    | false =>
      have hcross : scan.crossesLine = (scan.lexeme lexer.rest).any isLineTerminator := by
        rw [← hkind] at hs
        rw [← hscan] at hf ⊢
        exact Lexeme.crossesLine_scan hs hf
      simp only [skip, marginAfter, isBroken, hf, hs, Token.isSignificant, tokenAt, hcross]
      cases (scan.lexeme lexer.rest).any isLineTerminator <;> simp

end Lexer

/-! ## All tokens -/

/-- Tokens that stand one behind the other from `offset` on. If `broken` holds, a line has ended
before the first of them. -/
inductive Consecutive : (offset : Nat) → (broken : Bool) → List Token → Prop where
  | nil (offset : Nat) (broken : Bool) : Consecutive offset broken []
  | cons {offset : Nat} {broken : Bool} {token : Token} {rest : List Token}
      (start : token.start = offset) (filled : token.text ≠ [])
      (word : token.isSignificant = true →
        token.kind.isWord = token.text.head?.any Lexeme.startsWord)
      (followsBreak : token.isSignificant = true → token.followsBreak = broken)
      (behind : Consecutive (offset + Text.byteSize token.text)
        (!token.isSignificant && (broken || token.text.any isLineTerminator)) rest) :
      Consecutive offset broken (token :: rest)

namespace Consecutive

variable {offset : Nat} {broken : Bool} {read : List Token}

theorem word_of_mem (h : Consecutive offset broken read) {token : Token}
    (hmem : token ∈ read) (hs : token.isSignificant = true) :
    token.kind.isWord = token.text.head?.any Lexeme.startsWord := by
  induction h with
  | nil => cases hmem
  | cons _ _ hword _ _ ih =>
    rcases List.mem_cons.1 hmem with rfl | hmem
    · exact hword hs
    · exact ih hmem

theorem text_ne_nil_of_mem (h : Consecutive offset broken read) {token : Token}
    (hmem : token ∈ read) : token.text ≠ [] := by
  induction h with
  | nil => cases hmem
  | cons _ hfilled _ _ _ ih =>
    rcases List.mem_cons.1 hmem with rfl | hmem
    · exact hfilled
    · exact ih hmem

end Consecutive

namespace Reader

/-- The tokens that are still to be read spell out the rest of the script. -/
theorem consecutive_tokensFrom {reader : Reader} {read : List Token}
    (h : reader.tokensFrom [] = .ok read) :
    Consecutive reader.lexer.offset reader.lexer.isBroken read ∧
      read.flatMap Token.text = reader.lexer.rest := by
  induction reader using turns generalizing read with
  | failed reader error lexer hn => simp [tokensFrom_error hn] at h
  | ended reader token lexer hn hk =>
    rw [tokensFrom_end hn hk] at h
    cases h
    have htakes := Lexer.takes_of_next hn
    exact ⟨.nil _ _, by rw [htakes.ended hk]; rfl⟩
  | turn reader token lexer hn hk ih =>
    rw [tokensFrom_nil_token hn hk] at h
    cases hrest : (reader.after token lexer).tokensFrom [] with
    | error error => simp [hrest, Except.map] at h
    | ok rest =>
      simp only [hrest, Except.map, Except.ok.injEq] at h
      subst h
      have htakes := Lexer.takes_of_next hn
      obtain ⟨hconsecutive, hspelled⟩ := ih hrest
      rw [lexer_after] at hconsecutive hspelled
      rw [htakes.offset, htakes.broken] at hconsecutive
      refine ⟨.cons htakes.start (htakes.filled hk) htakes.word htakes.followsBreak hconsecutive,
        ?_⟩
      rw [List.flatMap_cons, hspelled, htakes.spelled]

end Reader

/-- The tokens of a script spell it out from its first byte on. -/
theorem consecutive_tokens {source : Text} {read : List Token} (h : tokens source = .ok read) :
    Consecutive 0 false read ∧ read.flatMap Token.text = source :=
  Reader.consecutive_tokensFrom h

end ScriptMinifier
