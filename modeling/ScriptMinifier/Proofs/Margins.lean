-- What the lexer knows about the line that it stands on. As long as it has given no error, its two
-- marks say exactly whether a line has ended since the last significant token, and whether a token
-- stands before on the same line. A line that ends inside of a token does not count.
import ScriptMinifier.Proofs.Boundaries
import ScriptMinifier.Proofs.Tiling

namespace ScriptMinifier

open Character

/-! ## Ends of lines among the bytes -/

/-- A carriage return or a line feed stands among the bytes from `start` up to `stop`. -/
def Code.LineEndsBetween (code : Code) (start stop : Nat) : Prop :=
  ∃ i, start ≤ i ∧ i < stop ∧ (code[i]? = some 0x0a ∨ code[i]? = some 0x0d)

namespace Code

theorem not_lineEndsBetween_self (code : Code) (offset : Nat) :
    ¬ code.LineEndsBetween offset offset := by
  rintro ⟨i, hle, hlt, _⟩
  omega

/-- What lies between two offsets lies before or behind one in the middle. -/
theorem lineEndsBetween_iff_or (code : Code) {start middle stop : Nat} (hstart : start ≤ middle)
    (hstop : middle ≤ stop) :
    code.LineEndsBetween start stop ↔
      code.LineEndsBetween start middle ∨ code.LineEndsBetween middle stop := by
  constructor
  · rintro ⟨i, hle, hlt, hbyte⟩
    rcases Nat.lt_or_ge i middle with hi | hi
    · exact Or.inl ⟨i, hle, hi, hbyte⟩
    · exact Or.inr ⟨i, hi, hlt, hbyte⟩
  · rintro (⟨i, hle, hlt, hbyte⟩ | ⟨i, hle, hlt, hbyte⟩)
    · exact ⟨i, hle, Nat.lt_of_lt_of_le hlt hstop, hbyte⟩
    · exact ⟨i, Nat.le_trans hstart hle, hlt, hbyte⟩

end Code

theorem isLineTerminator_charOfByte (b : UInt8) :
    isLineTerminator (charOfByte b) = true ↔ b = 0x0a ∨ b = 0x0d := by
  have hsame : ∀ other : UInt8, charOfByte b = charOfByte other ↔ b = other := by
    intro other
    rw [← Char.toNat_inj, toNat_charOfByte, toNat_charOfByte, UInt8.toNat_inj]
  rw [isLineTerminator, Bool.or_eq_true, beq_iff_eq, beq_iff_eq]
  exact or_congr (hsame 0x0a) (hsame 0x0d)

/-- A line ends among the bytes of a part if it has a character that ends a line. -/
theorem Stands.lineEndsBetween_iff {source part rest : Text} {offset : Nat}
    (h : Stands source offset (part ++ rest)) :
    Code.LineEndsBetween source.bytes offset (offset + Text.byteSize part) ↔
      part.any isLineTerminator = true := by
  obtain ⟨behind, rfl, rfl⟩ := h
  have hbyte : ∀ i, i < part.bytes.length →
      (behind ++ (part ++ rest)).bytes[Text.byteSize behind + i]? = part.bytes[i]? := by
    intro i hi
    rw [Text.bytes_append, Text.bytes_append, ← Text.length_bytes behind,
      List.getElem?_append_right (Nat.le_add_right _ _), Nat.add_sub_cancel_left,
      List.getElem?_append_left hi]
  rw [← Text.any_bytes asciiOnly_isLineTerminator, List.any_eq_true]
  constructor
  · rintro ⟨i, hle, hlt, hends⟩
    obtain ⟨j, rfl⟩ := Nat.exists_eq_add_of_le hle
    rw [hbyte j (by rw [Text.length_bytes]; omega)] at hends
    rcases hends with hends | hends
    · exact ⟨_, List.mem_of_getElem? hends, by decide⟩
    · exact ⟨_, List.mem_of_getElem? hends, by decide⟩
  · rintro ⟨b, hb, hends⟩
    obtain ⟨j, hj, rfl⟩ := List.mem_iff_getElem.1 hb
    refine ⟨Text.byteSize behind + j, Nat.le_add_right _ _, ?_, ?_⟩
    · rw [Text.length_bytes] at hj
      omega
    · rw [hbyte j hj, List.getElem?_eq_getElem hj]
      exact ((isLineTerminator_charOfByte _).1 hends).imp (congrArg some) (congrArg some)

/-! ## One call -/

namespace Lexer

/-- A token leaves the lexer on its own line, and anything else between tokens breaks the margin or
leaves it as it is. -/
theorem margin_of_next {lexer after : Lexer} {slash : Slash} {token : Token}
    (h : lexer.next slash = (.ok token, after)) :
    after.margin = (if token.isSignificant then .inline
      else if token.text.any isLineTerminator then .broken else lexer.margin) ∧
    token.followsBreak =
      ((token.isSignificant || token.kind == .endOfInput) && lexer.isBroken) := by
  obtain ⟨kind, scan, hpeek, hfault, rfl, rfl⟩ := exists_scan_of_next h
  refine ⟨?_, rfl⟩
  show lexer.marginAfter kind scan = if kind.isSignificant then _ else
    if (scan.lexeme lexer.rest).any isLineTerminator then _ else _
  cases hkind : kind.isSignificant with
  | true => simp [marginAfter, hfault, hkind]
  | false =>
    have hcrosses : scan.crossesLine = (scan.lexeme lexer.rest).any isLineTerminator := by
      have hscan : Lexeme.scan slash lexer.isAtLineStart lexer.rest = (kind, scan) := hpeek
      have hlexeme := @Lexeme.crossesLine_scan slash lexer.isAtLineStart lexer.rest
      rw [hscan] at hlexeme
      exact hlexeme hkind hfault
    rw [marginAfter, hkind, Bool.and_false, hcrosses]

/-- The lexer stands behind its last significant token, if there is one, and its margin tells
whether a line has ended since then. -/
structure Remembers (last : Option Token) (lexer : Lexer) : Prop where
  placed : lexer.IsPlaced
  behind : (last.map Token.stop).getD 0 ≤ lexer.offset
  broken : lexer.margin = .broken ↔
    Code.LineEndsBetween lexer.source.bytes ((last.map Token.stop).getD 0) lexer.offset
  start : lexer.margin = .start → last = none
  inline : lexer.margin = .inline → last ≠ none

theorem Remembers.isAtLineStart_iff {last : Option Token} {lexer : Lexer}
    (h : lexer.Remembers last) :
    lexer.isAtLineStart = true ↔ last = none ∨
      Code.LineEndsBetween lexer.source.bytes ((last.map Token.stop).getD 0) lexer.offset := by
  rw [← h.broken]
  unfold isAtLineStart
  cases hmargin : lexer.margin with
  | start => simp [h.start hmargin]
  | broken => simp
  | inline => simp [h.inline hmargin]

theorem remembers_ofText (source : Text) : (ofText source).Remembers none where
  placed := isPlaced_ofText source
  behind := Nat.le_refl 0
  broken := by
    constructor
    · intro h
      cases h
    · intro h
      exact absurd h (Code.not_lineEndsBetween_self _ 0)
  start := fun _ => rfl
  inline := by
    intro h
    cases h

section

variable {last : Option Token} {lexer after : Lexer} {slash : Slash} {token : Token}

theorem remembers_of_significant (h : lexer.Remembers last)
    (hnext : lexer.next slash = (.ok token, after)) (hs : token.isSignificant = true) :
    after.Remembers (some token) := by
  have htakes := takes_of_next hnext
  have hinline : after.margin = .inline := by rw [(margin_of_next hnext).1, if_pos hs]
  have hstop : token.stop = after.offset := by rw [Token.stop, htakes.start, htakes.offset]
  constructor
  · have hplaced := isPlaced_next h.placed slash
    rwa [hnext] at hplaced
  · exact Nat.le_of_eq hstop
  · rw [hinline, Option.map_some, Option.getD_some, hstop]
    simp [Code.not_lineEndsBetween_self]
  · intro hstart
    rw [hinline] at hstart
    cases hstart
  · intro _ hnone
    cases hnone

/-- What is read between tokens is added to what lies behind the last one. -/
theorem remembers_of_not_significant (h : lexer.Remembers last)
    (hnext : lexer.next slash = (.ok token, after)) (hs : token.isSignificant = false) :
    after.Remembers last := by
  have htakes := takes_of_next hnext
  have hmargin : after.margin =
      if token.text.any isLineTerminator then .broken else lexer.margin := by
    rw [(margin_of_next hnext).1, if_neg (by rw [hs]; exact Bool.false_ne_true)]
  have hsource : after.source = lexer.source := by
    have := source_next lexer slash
    rwa [hnext] at this
  have hpart : Code.LineEndsBetween lexer.source.bytes lexer.offset after.offset ↔
      token.text.any isLineTerminator = true := by
    have hplace : Stands lexer.source lexer.offset (token.text ++ after.rest) := by
      rw [htakes.spelled]
      exact h.placed
    rw [htakes.offset]
    exact hplace.lineEndsBetween_iff
  have hle : lexer.offset ≤ after.offset := by
    rw [htakes.offset]
    exact Nat.le_add_right _ _
  constructor
  · have hplaced := isPlaced_next h.placed slash
    rwa [hnext] at hplaced
  · exact Nat.le_trans h.behind hle
  · rw [hsource, Code.lineEndsBetween_iff_or _ h.behind hle, hpart, ← h.broken, hmargin]
    split
    · next hends => simp [hends]
    · next hends => simp [hends]
  · intro hstart
    rw [hmargin] at hstart
    split at hstart
    · cases hstart
    · exact h.start hstart
  · intro hinline
    rw [hmargin] at hinline
    split at hinline
    · cases hinline
    · exact h.inline hinline

end

/-- Call after call without an error, the lexer remembers the last significant token. -/
theorem remembers_afterCalls {last : Option Token} {lexer : Lexer} (h : lexer.Remembers last)
    {slashes : List Slash} (hread : ∀ call ∈ lexer.calls slashes, call.1.isOk = true) :
    (lexer.afterCalls slashes).Remembers
      (((tokensBeforeError (lexer.calls slashes)).filter Token.isSignificant).getLast?.or
        last) := by
  induction slashes generalizing lexer last with
  | nil => exact h
  | cons slash slashes ih =>
    obtain ⟨hok, hlater⟩ := List.forall_mem_cons.1 hread
    rw [calls, afterCalls]
    rcases hnext : lexer.next slash with ⟨error | token, after⟩
    · rw [hnext] at hok
      cases hok
    rw [hnext] at hlater
    rw [tokensBeforeError]
    cases hs : token.isSignificant with
    | true =>
      have hlast : ∀ read : List Token,
          (token :: read).getLast?.or last = read.getLast?.or (some token) := by
        intro read
        rw [List.getLast?_cons]
        cases read.getLast? <;> rfl
      rw [List.filter_cons_of_pos hs, hlast]
      exact ih (remembers_of_significant h hnext hs) hlater
    | false =>
      rw [List.filter_cons_of_neg (by simp [hs])]
      exact ih (remembers_of_not_significant h hnext hs) hlater

end Lexer

/-! ## The mark that closes a comment in markup -/

namespace Lexeme

/-- No punctuator goes on behind two minus signs. -/
theorem longestPunctuator?_markupEnd (text : Text) :
    longestPunctuator? ('-' :: '-' :: '>' :: text) = some ['-', '-'] := by
  have hnone : ∀ mark ∈ punctuators, ['-', '-', '>'].isPrefixOf mark = false := by decide +kernel
  have hlong : ∀ n, punctuators.contains ('-' :: '-' :: '>' :: text.take n) = false := by
    intro n
    rw [← Bool.not_eq_true, List.contains_iff_mem]
    intro hmem
    have := hnone _ hmem
    simp at this
  have hshort : punctuators.contains ['-', '-'] = true := by decide +kernel
  simp only [longestPunctuator?, List.map_cons, List.take_succ_cons, List.find?_cons]
  rw [hlong 1, hlong 0]
  simp only [List.take_zero, hshort]

/-- It is a comment at the start of a line and two minus signs otherwise. -/
theorem scan_markupEnd (slash : Slash) (atLineStart : Bool) (text : Text) :
    scan slash atLineStart ('-' :: '-' :: '>' :: text) =
      if atLineStart then (.lineComment, lineComment ('-' :: '-' :: '>' :: text))
      else (.punctuator, { length := 2 }) := by
  have hsignificant : significant slash ('-' :: '-' :: '>' :: text) =
      (.punctuator, { length := 2 }) := by
    have hnumber : number? ('-' :: '-' :: '>' :: text) = none := rfl
    have hmark : punctuatorOrWord ('-' :: '-' :: '>' :: text) = (.punctuator, { length := 2 }) := by
      rw [punctuatorOrWord, longestPunctuator?_markupEnd]
      rfl
    rw [significant, hnumber, hmark]
    rfl
  rw [scan, hsignificant]
  cases atLineStart with
  | true => rfl
  | false => rfl

end Lexeme

/-- The mark is a comment where the lexer is at the start of a line. -/
theorem Lexer.next_markupEnd {lexer : Lexer} (h : "-->".toList <+: lexer.rest) (slash : Slash) :
    ∃ token, (lexer.next slash).1 = .ok token ∧
      (token.kind = .lineComment ↔ lexer.isAtLineStart = true) ∧
      (token.kind ≠ .lineComment → token.kind = .punctuator ∧ token.text = "--".toList) := by
  obtain ⟨text, hrest⟩ := h
  have hscan : lexer.peek slash = if lexer.isAtLineStart then
      (.lineComment, Lexeme.lineComment ('-' :: '-' :: '>' :: text))
      else (.punctuator, { length := 2 }) := by
    rw [peek, ← hrest]
    exact Lexeme.scan_markupEnd slash lexer.isAtLineStart text
  rw [next, hscan]
  cases lexer.isAtLineStart with
  | true =>
    refine ⟨_, rfl, ⟨fun _ => rfl, fun _ => rfl⟩, ?_⟩
    intro hkind
    exact absurd rfl hkind
  | false =>
    refine ⟨_, rfl, ?_, fun _ => ⟨rfl, ?_⟩⟩
    · constructor
      · intro hkind
        cases hkind
      · intro hstart
        cases hstart
    · show lexer.rest.take 2 = _
      rw [← hrest]
      rfl

/-! ## The law -/

/-- The lexer knows exactly what lies between it and the last significant token. Whatever a slash
stands for at each call, as long as no call gives an error: a line break is pending if a line ends
among the bytes since that token, and the lexer is at the start of a line in this case and where
there is no such token yet. So a significant token, and the end, follows a break if a line ends
between the token before and itself, and `-->` is a comment if the lexer is at the start of a line
and begins with `--` otherwise. Behind a significant token both marks are cleared, whatever lines
end inside of it. -/
theorem line_ends_are_counted_since_the_last_token {source : Text} {slashes : List Slash}
    (hread : ∀ call ∈ (Lexer.ofText source).calls slashes, call.1.isOk = true) :
    let lexer := (Lexer.ofText source).afterCalls slashes
    let read := tokensBeforeError ((Lexer.ofText source).calls slashes)
    let last := (read.filter Token.isSignificant).getLast?
    let since := (last.map Token.stop).getD 0
    (ByteLexer.ofText source).afterCalls? slashes = some lexer.inBytes ∧
    (lexer.inBytes.breakPending = true ↔ Code.LineEndsBetween source.bytes since lexer.offset) ∧
    (lexer.inBytes.atLineStart = true ↔
      last = none ∨ Code.LineEndsBetween source.bytes since lexer.offset) ∧
    ∀ slash,
      (∀ token, (lexer.next slash).1 = .ok token →
        token.isSignificant = true ∨ token.kind = .endOfInput →
        (token.followsBreak = true ↔ Code.LineEndsBetween source.bytes since token.start) ∧
        (token.isSignificant = true → (lexer.next slash).2.inBytes.breakPending = false ∧
          (lexer.next slash).2.inBytes.atLineStart = false)) ∧
      ("-->".toList <+: lexer.rest → ∃ token, (lexer.next slash).1 = .ok token ∧
        (token.kind = .lineComment ↔
          last = none ∨ Code.LineEndsBetween source.bytes since lexer.offset) ∧
        (token.kind ≠ .lineComment →
          token.kind = .punctuator ∧ token.text = "--".toList)) := by
  intro lexer read last since
  have hremembers : lexer.Remembers last := by
    have := Lexer.remembers_afterCalls (Lexer.remembers_ofText source) hread
    rwa [Option.or_none] at this
  have hsource : lexer.source = source := Lexer.source_afterCalls (Lexer.ofText source) slashes
  have hpending : lexer.inBytes.breakPending = true ↔
      Code.LineEndsBetween source.bytes since lexer.offset := by
    rw [← hsource, ← hremembers.broken]
    exact beq_iff_eq
  have hstart : lexer.isAtLineStart = true ↔
      last = none ∨ Code.LineEndsBetween source.bytes since lexer.offset := by
    rw [← hsource]
    exact hremembers.isAtLineStart_iff
  refine ⟨Lexer.afterCalls?_inBytes (Lexer.isPlaced_ofText source) slashes, hpending, hstart,
    fun slash => ⟨fun token htoken hcounts => ?_, fun hmark => ?_⟩⟩
  · have hnext : lexer.next slash = (.ok token, (lexer.next slash).2) := by rw [← htoken]
    obtain ⟨hmargin, hfollows⟩ := Lexer.margin_of_next hnext
    constructor
    · have hcounted : (token.isSignificant || token.kind == .endOfInput) = true := by
        simpa using hcounts
      rw [hfollows, hcounted, Bool.true_and, (Lexer.takes_of_next hnext).start]
      exact hpending
    · intro hs
      rw [hs, if_pos rfl] at hmargin
      simp [Lexer.inBytes, Lexer.isAtLineStart, hmargin]
  · obtain ⟨token, htoken, hcomment, hminus⟩ := Lexer.next_markupEnd hmark slash
    exact ⟨token, htoken, hcomment.trans hstart, hminus⟩

/-- A line that ends in a comment inside of a template does not count, so the mark behind the
template is no comment. Behind the next line break it is one. -/
theorem markup_end_is_a_comment_behind_a_break :
    let source := "`$\x7b/*\n*/0\x7d`-->x\n-->y".toList
    (∃ token, (((Lexer.ofText source).afterCalls [.division]).next .division).1 = .ok token ∧
      token.kind = .punctuator ∧ token.text = "--".toList) ∧
    ∃ token, (((Lexer.ofText source).afterCalls (.replicate 5 .division)).next .division).1 =
      .ok token ∧ token.kind = .lineComment := by
  intro source
  constructor
  · obtain ⟨_, _, _, hnext⟩ := line_ends_are_counted_since_the_last_token
      (by decide +kernel : ∀ call ∈ (Lexer.ofText source).calls [.division], call.1.isOk = true)
    obtain ⟨token, htoken, hcomment, hminus⟩ := (hnext .division).2 (by decide +kernel)
    refine ⟨token, htoken, hminus ?_⟩
    rw [Ne, hcomment, not_or]
    refine ⟨by decide +kernel, ?_⟩
    rintro ⟨i, hle, hlt, _⟩
    exact absurd (Nat.lt_of_le_of_lt hle hlt) (by decide +kernel)
  · obtain ⟨_, _, _, hnext⟩ := line_ends_are_counted_since_the_last_token
      (by decide +kernel :
        ∀ call ∈ (Lexer.ofText source).calls (.replicate 5 .division), call.1.isOk = true)
    obtain ⟨token, htoken, hcomment, _⟩ := (hnext .division).2 (by decide +kernel)
    exact ⟨token, htoken, hcomment.2 (Or.inr ⟨15, by decide +kernel⟩)⟩

end ScriptMinifier
