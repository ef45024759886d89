-- Strings are read item by item. Between its quotes a string holds escapes and plain bytes, and
-- what stands behind the last item tells how the string ends: with its quote, with a backslash and
-- nothing behind it, or where the line or the code ends.
import Mathlib.Logic.Relation
import ScriptMinifier.Proofs.Templates

namespace ScriptMinifier

open Character Relation

/-! ## Answers -/

namespace Lexer

/-- What a lexer answers when a scan has read a lexeme of this kind, or has failed to. -/
def answer (lexer : Lexer) (kind : TokenKind) (scan : Scan) : Except LexError Token × Lexer :=
  (match scan.fault with
    | some fault => .error (lexer.errorAt fault)
    | none => .ok (lexer.tokenAt kind scan),
   lexer.skip kind scan)

theorem next_eq_answer (lexer : Lexer) (slash : Slash) :
    lexer.next slash = lexer.answer (lexer.peek slash).1 (lexer.peek slash).2 := rfl

/-- The answer is a token of this kind, and the lexer has come to `stop`. -/
def ReadsTo (answer : Except LexError Token × Lexer) (kind : TokenKind) (stop : Nat) : Prop :=
  ∃ token, answer.1 = .ok token ∧ token.kind = kind ∧ answer.2.offset = stop

end Lexer

/-- The scan has stopped with this error. -/
def Code.Fails (error : LexError) (result : Option Code.Halt) : Prop :=
  ∃ halt, result = some halt ∧ halt.error = some error

namespace Code

variable {code : Code} {start next : Nat} {kind : LexError.Kind} {crossed : Bool}

theorem not_fails_some {error : LexError} : ¬ Fails error (some { next, crossed }) := by
  rintro ⟨halt, hhalt, herror⟩
  obtain rfl := Option.some.inj hhalt
  cases herror

theorem fails_fail?_iff {position : Position} (h : code.position? start = some position)
    {error : LexError} :
    Fails error (code.fail? kind start next crossed) ↔ error = { kind, position } := by
  rw [fail?, h]
  constructor
  · rintro ⟨halt, hhalt, herror⟩
    obtain rfl := Option.some.inj hhalt
    exact (Option.some.inj herror).symm
  · rintro rfl
    exact ⟨_, rfl, rfl⟩

end Code

namespace Lexer

theorem readsTo_answer_iff (lexer : Lexer) (kind : TokenKind) (scan : Scan) (stop : Nat) :
    ReadsTo (lexer.answer kind scan) kind stop ↔
      Code.Reaches stop (some (scan.halt lexer.source lexer.offset lexer.rest)) := by
  rw [Code.reaches_halt_iff, answer]
  cases scan.fault with
  | none =>
    constructor
    · rintro ⟨token, _, _, hstop⟩
      exact ⟨rfl, hstop⟩
    · rintro ⟨_, hstop⟩
      exact ⟨_, rfl, rfl, hstop⟩
  | some fault =>
    constructor
    · rintro ⟨token, htoken, _⟩
      cases htoken
    · rintro ⟨hfault, _⟩
      cases hfault

theorem answer_eq_error_iff (lexer : Lexer) (kind : TokenKind) (scan : Scan) (error : LexError) :
    (lexer.answer kind scan).1 = .error error ↔
      Code.Fails error (some (scan.halt lexer.source lexer.offset lexer.rest)) := by
  have herror : (scan.halt lexer.source lexer.offset lexer.rest).error =
      scan.fault.map lexer.errorAt := rfl
  have hfails : Code.Fails error (some (scan.halt lexer.source lexer.offset lexer.rest)) ↔
      scan.fault.map lexer.errorAt = some error := by
    rw [← herror]
    exact ⟨fun ⟨halt, hhalt, h⟩ => Option.some.inj hhalt ▸ h, fun h => ⟨_, rfl, h⟩⟩
  rw [hfails, answer]
  cases scan.fault with
  | none => simp
  | some fault => simp

end Lexer

/-! ## The items of a string -/

/-- One item between the quotes of a string. -/
inductive Code.IsQuotedItem (code : Code) (quote : Char) : (start stop : Nat) → Prop where
  /-- The line goes on behind a carriage return and its line feed. -/
  | longEscape {start : Nat} (backslash : code.peek start = some '\\')
      (carriage : code.peek (start + 1) = some '\r') (feed : code.peek (start + 2) = some '\n') :
      IsQuotedItem code quote start (start + 3)
  | escape {start : Nat} {c : Char} (backslash : code.peek start = some '\\')
      (escaped : code.peek (start + 1) = some c)
      (short : ¬ (c = '\r' ∧ code.peek (start + 2) = some '\n')) :
      IsQuotedItem code quote start (start + 2)
  | byte {start : Nat} {c : Char} (byte : code.peek start = some c)
      (plain : c ≠ quote ∧ c ≠ '\\') (sameLine : isLineTerminator c = false) :
      IsQuotedItem code quote start (start + 1)

/-- The bytes from `start` up to `stop` are a quote, items, and the same quote again. -/
def Code.IsString (code : Code) (quote : Char) (start stop : Nat) : Prop :=
  code.peek start = some quote ∧ ∃ last, ReflTransGen (code.IsQuotedItem quote) (start + 1) last ∧
    code.peek last = some quote ∧ stop = last + 1

/-- What stands where no further item starts, and the fault that this is. -/
inductive Code.EndsItems (code : Code) (quote : Char) (last : Nat) :
    Option LexError.Kind → Prop where
  | closed (closing : code.peek last = some quote) : EndsItems code quote last none
  | cutOff (backslash : code.peek last = some '\\') (ended : code.peek (last + 1) = none) :
      EndsItems code quote last (some .openContinuation)
  | lineEnd (ended : ∀ c, code.peek last = some c → isLineTerminator c = true) :
      EndsItems code quote last (some .openString)

/-- A walk whose steps are told by where they start comes to a stop at one place only. -/
theorem eq_of_stuck {step : Nat → Nat → Prop} (hunique : Relator.RightUnique step)
    {start last other : Nat} (hlast : ReflTransGen step start last)
    (hother : ReflTransGen step start other) (hstuck : ∀ next, ¬ step last next)
    (hstuck' : ∀ next, ¬ step other next) : last = other := by
  rcases hlast.total_of_right_unique hunique hother with h | h
  · exact ((reflTransGen_iff_eq hstuck).1 h).symm
  · exact (reflTransGen_iff_eq hstuck').1 h

namespace Lexeme

theorem ne_backslash_of_isQuote {quote : Char} (h : isQuote quote = true) :
    quote ≠ '\\' ∧ isLineTerminator quote = false := by
  simp only [isQuote, Bool.or_eq_true, beq_iff_eq] at h
  rcases h with rfl | rfl <;> decide

/-- No blank and no comment starts with a quote. -/
theorem scan_of_isQuote {quote : Char} (h : isQuote quote = true) (slash : Slash)
    (atLineStart : Bool) (text : Text) :
    scan slash atLineStart (quote :: text) = (.string, quoted (quote :: text)) := by
  simp only [isQuote, Bool.or_eq_true, beq_iff_eq] at h
  rcases h with rfl | rfl <;> cases atLineStart <;> rfl

end Lexeme

namespace Code

variable {code : Code} {quote : Char} {origin start stop last next : Nat}

theorem rightUnique_isQuotedItem : Relator.RightUnique (code.IsQuotedItem quote) := by
  intro start stop other hstop hother
  cases hstop <;> cases hother <;> grind

theorem EndsItems.not_isQuotedItem {fault : Option LexError.Kind}
    (hquote : Lexeme.isQuote quote = true) (h : code.EndsItems quote last fault) (next : Nat) :
    ¬ code.IsQuotedItem quote last next := by
  obtain ⟨hbackslash, hline⟩ := Lexeme.ne_backslash_of_isQuote hquote
  have hplain : isLineTerminator '\\' = false := rfl
  intro hitem
  cases h <;> cases hitem <;> grind

theorem endsItems_openContinuation_iff :
    code.EndsItems quote last (some .openContinuation) ↔
      code.peek last = some '\\' ∧ code.peek (last + 1) = none := by
  constructor
  · rintro (_ | ⟨hbackslash, hended⟩)
    exact ⟨hbackslash, hended⟩
  · rintro ⟨hbackslash, hended⟩
    exact .cutOff hbackslash hended

theorem endsItems_openString_iff :
    code.EndsItems quote last (some .openString) ↔
      ∀ c, code.peek last = some c → isLineTerminator c = true := by
  constructor
  · rintro (_ | _ | hended)
    exact hended
  · exact .lineEnd

theorem EndsItems.unique {fault other : Option LexError.Kind}
    (hquote : Lexeme.isQuote quote = true) (h : code.EndsItems quote last fault)
    (hother : code.EndsItems quote last other) : fault = other := by
  obtain ⟨hbackslash, hline⟩ := Lexeme.ne_backslash_of_isQuote hquote
  have hplain : isLineTerminator '\\' = false := rfl
  cases h <;> cases hother <;> grind

/-! ## The scan of a string -/

/-- A scan of a string passes some items and halts as what stands behind them says. -/
theorem exists_endsItems (origin : Nat) (quote : Char) (next : Nat) :
    ∃ last fault, ReflTransGen (code.IsQuotedItem quote) next last ∧
      code.EndsItems quote last fault ∧
      match fault with
      | none => code.quotedFrom? origin quote next = some { next := last + 1 }
      | some kind => ∃ stop, code.quotedFrom? origin quote next = code.fail? kind origin stop := by
  fun_induction Code.quotedFrom? code origin quote next with
  | case1 next hpeek =>
    exact ⟨next, _, .refl, .lineEnd (by simp [hpeek]), next, rfl⟩
  | case2 next c hpeek hc hlast =>
    obtain rfl : c = '\\' := by simpa using hc
    exact ⟨next, _, .refl, .cutOff hpeek hlast, next + 1, rfl⟩
  | case3 next c hpeek hc d hnext hd ih =>
    obtain rfl : c = '\\' := by simpa using hc
    obtain rfl : d = '\r' := by simpa using hd
    obtain ⟨last, fault, hitems, hend⟩ := ih
    refine ⟨last, fault, .head ?_ hitems, hend⟩
    -- A carriage return takes a line feed with it, if there is one.
    unfold Code.optional
    split
    · next hfeed => exact .longEscape hpeek hnext (by simpa using hfeed)
    · next hfeed => exact .escape hpeek hnext (by simpa using hfeed)
  | case4 next c hpeek hc d hnext hd ih =>
    obtain rfl : c = '\\' := by simpa using hc
    obtain ⟨last, fault, hitems, hend⟩ := ih
    refine ⟨last, fault, .head (.escape hpeek hnext ?_) hitems, hend⟩
    simp_all
  | case5 next c hpeek hc hquote =>
    obtain rfl : c = quote := by simpa using hquote
    exact ⟨next, none, .refl, .closed hpeek, rfl⟩
  | case6 next c hpeek hc hquote hends =>
    exact ⟨next, _, .refl, .lineEnd (by simp [hpeek, hends]), next + 1, rfl⟩
  | case7 next c hpeek hc hquote hends ih =>
    obtain ⟨last, fault, hitems, hend⟩ := ih
    refine ⟨last, fault, .head (.byte hpeek ?_ ?_) hitems, hend⟩
    · simp_all
    · simpa using hends

/-- The same holds from the opening quote on. -/
theorem exists_endsItems_quoted? (hpeek : code.peek start = some quote) :
    ∃ last fault, ReflTransGen (code.IsQuotedItem quote) (start + 1) last ∧
      code.EndsItems quote last fault ∧
      match fault with
      | none => code.quoted? start = some { next := last + 1 }
      | some kind => ∃ stop, code.quoted? start = code.fail? kind start stop := by
  have hscan : code.quoted? start = code.quotedFrom? start quote (start + 1) := by
    rw [quoted?, hpeek, step?_of_peek hpeek]
    rfl
  rw [hscan]
  exact exists_endsItems start quote (start + 1)

/-- Where the items end does not depend on the way that is gone over them. -/
theorem EndsItems.eq_of_items {fault other : Option LexError.Kind} {last' : Nat}
    (hquote : Lexeme.isQuote quote = true)
    (hitems : ReflTransGen (code.IsQuotedItem quote) next last)
    (hend : code.EndsItems quote last fault)
    (hitems' : ReflTransGen (code.IsQuotedItem quote) next last')
    (hend' : code.EndsItems quote last' other) : last = last' ∧ fault = other := by
  obtain rfl := eq_of_stuck rightUnique_isQuotedItem hitems hitems'
    (hend.not_isQuotedItem hquote) (hend'.not_isQuotedItem hquote)
  exact ⟨rfl, hend.unique hquote hend'⟩

theorem reaches_quoted?_iff_isString (hquote : Lexeme.isQuote quote = true)
    (hpeek : code.peek start = some quote) :
    Reaches stop (code.quoted? start) ↔ code.IsString quote start stop := by
  obtain ⟨last, fault, hitems, hend, hhalt⟩ := exists_endsItems_quoted? hpeek
  constructor
  · intro h
    cases hend with
    | closed hclosing =>
      rw [hhalt] at h
      exact ⟨hpeek, last, hitems, hclosing, reaches_some.1 h⟩
    | cutOff | lineEnd =>
      obtain ⟨n, hfail⟩ := hhalt
      rw [hfail] at h
      exact absurd h (not_reaches_fail? _ _ _)
  · rintro ⟨_, other, hother, hclosing, rfl⟩
    obtain ⟨rfl, rfl⟩ := hend.eq_of_items hquote hitems hother (.closed hclosing)
    rw [hhalt]
    exact reaches_some.2 rfl

theorem fails_quoted?_iff (hquote : Lexeme.isQuote quote = true)
    (hpeek : code.peek start = some quote) {position : Position}
    (hposition : code.position? start = some position) (kind : LexError.Kind) :
    Fails { kind, position } (code.quoted? start) ↔
      ∃ last, ReflTransGen (code.IsQuotedItem quote) (start + 1) last ∧
        code.EndsItems quote last (some kind) := by
  obtain ⟨last, fault, hitems, hend, hhalt⟩ := exists_endsItems_quoted? hpeek
  constructor
  · intro h
    cases fault with
    | none =>
      rw [hhalt] at h
      exact absurd h not_fails_some
    | some kind' =>
      obtain ⟨n, hfail⟩ := hhalt
      rw [hfail, fails_fail?_iff hposition] at h
      obtain rfl := congrArg LexError.kind h
      exact ⟨last, hitems, hend⟩
  · rintro ⟨other, hother, hend'⟩
    obtain ⟨rfl, rfl⟩ := hend.eq_of_items hquote hitems hother hend'
    obtain ⟨n, hfail⟩ := hhalt
    rw [hfail, fails_fail?_iff hposition]

theorem IsString.unique {other : Nat} (hquote : Lexeme.isQuote quote = true)
    (h : code.IsString quote start stop) (hother : code.IsString quote start other) :
    stop = other := by
  obtain ⟨_, last, hitems, hclosing, rfl⟩ := h
  obtain ⟨_, last', hitems', hclosing', rfl⟩ := hother
  rw [((EndsItems.closed hclosing).eq_of_items hquote hitems hitems' (.closed hclosing')).1]

end Code

/-! ## The law -/

/-- Where a quote stands among the bytes, a lexer that is set down there reads a string, and it does
so up to the offset where items and the same quote end. There is at most one such offset. Without
one the error names the opening quote: the string is cut off if the code ends right behind a
backslash that no item has taken, and it is open if a line ends, or the code does, behind its
items. -/
theorem strings_are_read_item_by_item {source : Text} {offset : Nat} {quote : Char}
    (hquote : Lexeme.isQuote quote = true) (h : Code.peek source.bytes offset = some quote)
    (margin : Margin) (slash : Slash) :
    let code : Code := source.bytes
    let lexer : Lexer := { source, offset, rest := Text.dropBytes offset source, margin }
    let call := lexer.next slash
    let error (kind : LexError.Kind) : LexError :=
      { kind, position := Position.resolve source offset }
    let items := ReflTransGen (code.IsQuotedItem quote)
    (∀ stop, Lexer.ReadsTo call .string stop ↔ code.IsString quote offset stop) ∧
    (∀ stop other, code.IsString quote offset stop → code.IsString quote offset other →
      stop = other) ∧
    ((∀ stop, ¬ code.IsString quote offset stop) ↔
      call.1 = .error (error .openContinuation) ∨ call.1 = .error (error .openString)) ∧
    (call.1 = .error (error .openContinuation) ↔ ∃ last, items (offset + 1) last ∧
      code.peek last = some '\\' ∧ code.peek (last + 1) = none) ∧
    (call.1 = .error (error .openString) ↔ ∃ last, items (offset + 1) last ∧
      ∀ c, code.peek last = some c → isLineTerminator c = true) := by
  intro code lexer call error items
  obtain ⟨tail, hstands⟩ := Stands.of_peek (asciiOnly_isQuote quote hquote) h
  have hahead : lexer.rest = quote :: tail := hstands.dropBytes_eq
  have hcall : call = lexer.answer .string (Lexeme.quoted lexer.rest) := by
    show lexer.next slash = _
    have hpeek : lexer.peek slash = (.string, Lexeme.quoted lexer.rest) := by
      rw [Lexer.peek, hahead, Lexeme.scan_of_isQuote hquote]
    rw [Lexer.next_eq_answer, hpeek]
  have hhalt : code.quoted? offset =
      some ((Lexeme.quoted lexer.rest).halt source offset lexer.rest) := by
    rw [hahead]
    exact Lexeme.quoted?_bytes hstands (asciiOnly_isQuote quote hquote)
  have hreads : ∀ stop, Lexer.ReadsTo call .string stop ↔ code.IsString quote offset stop := by
    intro stop
    rw [hcall, Lexer.readsTo_answer_iff, ← Code.reaches_quoted?_iff_isString hquote h, hhalt]
  have hfails : ∀ kind, call.1 = .error (error kind) ↔
      ∃ last, items (offset + 1) last ∧ code.EndsItems quote last (some kind) := by
    intro kind
    rw [hcall, Lexer.answer_eq_error_iff,
      ← Code.fails_quoted?_iff hquote h hstands.position? kind, hhalt]
  refine ⟨hreads, fun stop other => Code.IsString.unique hquote, ⟨fun hnone => ?_, ?_⟩, ?_, ?_⟩
  · obtain ⟨last, fault, hitems, hend, _⟩ := Code.exists_endsItems_quoted? h
    cases hend with
    | closed hclosing => exact absurd ⟨h, last, hitems, hclosing, rfl⟩ (hnone (last + 1))
    | cutOff hbackslash hended =>
      exact Or.inl ((hfails _).2 ⟨last, hitems, .cutOff hbackslash hended⟩)
    | lineEnd hended => exact Or.inr ((hfails _).2 ⟨last, hitems, .lineEnd hended⟩)
  · intro herror stop hstring
    obtain ⟨token, htoken, _⟩ := (hreads stop).2 hstring
    rw [htoken] at herror
    rcases herror with herror | herror <;> cases herror
  · rw [hfails]
    exact exists_congr fun last => and_congr_right' Code.endsItems_openContinuation_iff
  · rw [hfails]
    exact exists_congr fun last => and_congr_right' Code.endsItems_openString_iff

/-- A string with a line that goes on, with a character of two bytes behind a backslash and with an
escaped quote, and a string that is cut off behind a backslash. -/
theorem string_with_escapes_and_one_that_is_cut_off :
    let source : Text := "é='\\\r\n\\ü\\'';'x\\".toList
    Code.IsString source.bytes '\'' 3 13 ∧
      ((Lexer.mk source 14 (Text.dropBytes 14 source) .inline).next .division).1 =
        .error ⟨.openContinuation, { offset := 14, line := 1, column := 6 }⟩ := by
  intro source
  have hpeek : Code.peek source.bytes 3 = some '\'' := by decide +kernel
  have hcut : Code.peek source.bytes 14 = some '\'' := by decide +kernel
  obtain ⟨hreads, _⟩ := strings_are_read_item_by_item rfl hpeek .inline .division
  obtain ⟨_, _, _, hcontinuation, _⟩ := strings_are_read_item_by_item rfl hcut .inline .division
  constructor
  · have htoken : ((Lexer.mk source 3 (Text.dropBytes 3 source) .inline).next .division).1 =
        .ok ⟨.string, Text.slice source 3 13, 3, false⟩ := eq_ok_of_toOption (by decide +kernel)
    exact (hreads 13).1 ⟨_, htoken, rfl, by decide +kernel⟩
  · have hbyte : Code.peek source.bytes 15 = some 'x' := by decide +kernel
    refine (hcontinuation.2 ⟨16, .single (.byte hbyte (by decide) rfl), ?_, ?_⟩).trans ?_
    · decide +kernel
    · decide +kernel
    · exact congrArg (fun position => Except.error (LexError.mk .openContinuation position))
        (by decide +kernel)

end ScriptMinifier
