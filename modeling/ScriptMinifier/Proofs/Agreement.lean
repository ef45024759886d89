-- Reading and writing agree. The reader and the writer walk over a script in two loops of
-- their own, and each of them tells its lexer what a slash stands for. Both loops take the
-- same turns: they fail on the same scripts with the same error, and on all others the writer
-- takes the significant tokens of the reader, each at the same place of the program.
import ScriptMinifier.Minify

namespace ScriptMinifier

/-! ## The tracker of the writer -/

namespace Writer

@[simp]
theorem tracker_settle (writer : Writer) (next : Option Text) :
    (writer.settle next).tracker = writer.tracker := by
  unfold settle
  split <;> rfl

@[simp]
theorem previous_settle (writer : Writer) (next : Option Text) :
    (writer.settle next).previous = writer.previous := by
  unfold settle
  split <;> rfl

@[simp]
theorem tracker_put (writer : Writer) (text : Text) (c : TokenClass)
    (breakKept breakMatters : Bool) :
    (writer.put text c breakKept breakMatters).tracker = writer.tracker := by
  unfold put
  split <;> rfl

/-- The writer moves its tracker past a token as the reader does. -/
theorem tracker_accept (writer : Writer) (token : Token) :
    (writer.accept token).tracker =
      writer.tracker.read (token.classAfter writer.previous) token.followsBreak := by
  simp only [accept, advance, tracker_put, previous_settle, tracker_settle, Tracker.read]
  split
  · simp [keepBreak]
  · simp

@[simp]
theorem previous_accept (writer : Writer) (token : Token) :
    (writer.accept token).previous = some token := rfl

end Writer

/-! ## Turns of the loops -/

namespace Reader

/-- What holds at the end of a script and at an error, and before a token if it holds behind it,
holds for every reader. -/
theorem turns {motive : Reader → Prop}
    (failed : ∀ reader error lexer, reader.next = (.error error, lexer) → motive reader)
    (ended : ∀ reader token lexer, reader.next = (.ok token, lexer) →
      token.kind = .endOfInput → motive reader)
    (turn : ∀ reader token lexer, reader.next = (.ok token, lexer) → token.kind ≠ .endOfInput →
      motive (reader.after token lexer) → motive reader)
    (reader : Reader) : motive reader := by
  rcases h : reader.next with ⟨error | token, lexer⟩
  · exact failed reader error lexer h
  · by_cases hk : token.kind = .endOfInput
    · exact ended reader token lexer h hk
    · exact turn reader token lexer h hk (turns failed ended turn _)
termination_by reader.lexer.rest.length
decreasing_by
  rw [lexer_after]
  have := Lexer.length_rest_next _ reader.tracker.slash (Lexer.rest_ne_nil_of_next h hk)
  rwa [show reader.lexer.next reader.tracker.slash = _ from h] at this

/-- The tokens that were read before do not change what comes next. -/
theorem tokensFrom_eq_map (reader : Reader) (before : List Token) :
    reader.tokensFrom before = (reader.tokensFrom []).map (before.reverse ++ ·) := by
  induction reader using turns generalizing before with
  | failed reader error lexer h =>
    rw [tokensFrom_error h, tokensFrom_error h]
    rfl
  | ended reader token lexer h hk =>
    rw [tokensFrom_end h hk, tokensFrom_end h hk]
    simp [Except.map]
  | turn reader token lexer h hk ih =>
    rw [tokensFrom_token h hk, tokensFrom_token h hk, ih (token :: before), ih [token]]
    cases (reader.after token lexer).tokensFrom [] <;> simp [Except.map]

theorem tokensFrom_nil_token {reader : Reader} {token : Token} {lexer : Lexer}
    (h : reader.next = (.ok token, lexer)) (hk : token.kind ≠ .endOfInput) :
    reader.tokensFrom [] = ((reader.after token lexer).tokensFrom []).map (token :: ·) := by
  rw [tokensFrom_token h hk, tokensFrom_eq_map]
  rfl

set_option linter.unusedVariables false in
/-- The significant tokens that the loop passes, each with the tracker before it. -/
def log (reader : Reader) : List (Tracker × Token) :=
  match h : reader.next with
  | (.error _, _) => []
  | (.ok token, lexer) =>
    if hk : token.kind = .endOfInput then []
    else
      (if token.isSignificant then [(reader.tracker, token)] else []) ++
        (reader.after token lexer).log
termination_by reader.lexer.rest.length
decreasing_by
  rw [lexer_after]
  have := Lexer.length_rest_next _ reader.tracker.slash (Lexer.rest_ne_nil_of_next h hk)
  rwa [show reader.lexer.next reader.tracker.slash = _ from h] at this

theorem log_error {reader : Reader} {error : LexError} {lexer : Lexer}
    (h : reader.next = (.error error, lexer)) : reader.log = [] := by
  rw [log]
  split
  · rfl
  · next h' => simp_all

theorem log_end {reader : Reader} {token : Token} {lexer : Lexer}
    (h : reader.next = (.ok token, lexer)) (hk : token.kind = .endOfInput) : reader.log = [] := by
  rw [log]
  split
  · rfl
  · next h' => simp_all

theorem log_token {reader : Reader} {token : Token} {lexer : Lexer}
    (h : reader.next = (.ok token, lexer)) (hk : token.kind ≠ .endOfInput) :
    reader.log = (if token.isSignificant then [(reader.tracker, token)] else []) ++
      (reader.after token lexer).log := by
  rw [log]
  split
  · next h' => simp_all
  · next h' => simp_all

end Reader

namespace Writer

set_option linter.unusedVariables false in
/-- The tokens that the loop hands to the writer, each with the tracker before it. -/
def log (writer : Writer) (lexer : Lexer) : List (Tracker × Token) :=
  match h : lexer.next writer.tracker.slash with
  | (.error _, _) => []
  | (.ok token, rest) =>
    if hk : token.kind = .endOfInput then []
    else if token.isSignificant then
      (writer.tracker, token) :: (writer.accept token).log rest
    else writer.log rest
termination_by lexer.rest.length
decreasing_by
  all_goals
    have := Lexer.length_rest_next _ writer.tracker.slash (Lexer.rest_ne_nil_of_next h hk)
    rwa [h] at this

theorem log_error {writer : Writer} {lexer rest : Lexer} {error : LexError}
    (h : lexer.next writer.tracker.slash = (.error error, rest)) : writer.log lexer = [] := by
  rw [log]
  split
  · rfl
  · next h' => simp_all

theorem log_end {writer : Writer} {lexer rest : Lexer} {token : Token}
    (h : lexer.next writer.tracker.slash = (.ok token, rest)) (hk : token.kind = .endOfInput) :
    writer.log lexer = [] := by
  rw [log]
  split
  · rfl
  · next h' => simp_all

theorem log_significant {writer : Writer} {lexer rest : Lexer} {token : Token}
    (h : lexer.next writer.tracker.slash = (.ok token, rest)) (hk : token.kind ≠ .endOfInput)
    (hs : token.isSignificant = true) :
    writer.log lexer = (writer.tracker, token) :: (writer.accept token).log rest := by
  rw [log]
  split
  · next h' => simp_all
  · next h' => simp_all

theorem log_skipped {writer : Writer} {lexer rest : Lexer} {token : Token}
    (h : lexer.next writer.tracker.slash = (.ok token, rest)) (hk : token.kind ≠ .endOfInput)
    (hs : token.isSignificant = false) : writer.log lexer = writer.log rest := by
  rw [log]
  split
  · next h' => simp_all
  · next h' => simp_all

end Writer

/-! ## Both loops side by side -/

/-- The two walks stand at the same place of the program. -/
structure Abreast (writer : Writer) (reader : Reader) : Prop where
  tracker : writer.tracker = reader.tracker
  previous : writer.previous = reader.previous

namespace Abreast

variable {writer : Writer} {reader : Reader} {token : Token} {lexer : Lexer}

theorem significant (h : Abreast writer reader) (hs : token.isSignificant = true) :
    Abreast (writer.accept token) (reader.after token lexer) := by
  constructor
  · rw [Writer.tracker_accept, h.tracker, h.previous]
    simp [Reader.after, hs]
  · simp [Reader.after, hs]

theorem skipped (h : Abreast writer reader) (hs : token.isSignificant = false) :
    Abreast writer (reader.after token lexer) := by
  constructor
  · rw [h.tracker]
    simp [Reader.after, hs]
  · rw [h.previous]
    simp [Reader.after, hs]

end Abreast

/-- The writer does with the rest of a script what it does with the significant tokens of it. -/
theorem Writer.run_eq_map_tokensFrom (writer : Writer) (reader : Reader)
    (h : Abreast writer reader) :
    writer.run reader.lexer = (reader.tokensFrom []).map fun tokens =>
      ((tokens.filter Token.isSignificant).foldl accept writer).finish := by
  induction reader using Reader.turns generalizing writer with
  | failed reader error lexer hn =>
    have hw : reader.lexer.next writer.tracker.slash = (.error error, lexer) := by
      rw [h.tracker]; exact hn
    rw [run_error hw, Reader.tokensFrom_error hn]
    rfl
  | ended reader token lexer hn hk =>
    have hw : reader.lexer.next writer.tracker.slash = (.ok token, lexer) := by
      rw [h.tracker]; exact hn
    rw [run_end hw hk, Reader.tokensFrom_end hn hk]
    rfl
  | turn reader token lexer hn hk ih =>
    have hw : reader.lexer.next writer.tracker.slash = (.ok token, lexer) := by
      rw [h.tracker]; exact hn
    rw [run_token hw hk, Reader.tokensFrom_nil_token hn hk]
    cases hs : token.isSignificant with
    | true =>
      have := ih (writer.accept token) (h.significant hs)
      rw [Reader.lexer_after] at this
      simp only [if_true, this]
      cases (reader.after token lexer).tokensFrom [] <;> simp [Except.map, hs]
    | false =>
      have := ih writer (h.skipped hs)
      rw [Reader.lexer_after] at this
      simp only [Bool.false_eq_true, if_false, this]
      cases (reader.after token lexer).tokensFrom [] <;> simp [Except.map, hs]

theorem Writer.log_eq_log (writer : Writer) (reader : Reader) (h : Abreast writer reader) :
    writer.log reader.lexer = reader.log := by
  induction reader using Reader.turns generalizing writer with
  | failed reader error lexer hn =>
    have hw : reader.lexer.next writer.tracker.slash = (.error error, lexer) := by
      rw [h.tracker]; exact hn
    rw [log_error hw, Reader.log_error hn]
  | ended reader token lexer hn hk =>
    have hw : reader.lexer.next writer.tracker.slash = (.ok token, lexer) := by
      rw [h.tracker]; exact hn
    rw [log_end hw hk, Reader.log_end hn hk]
  | turn reader token lexer hn hk ih =>
    have hw : reader.lexer.next writer.tracker.slash = (.ok token, lexer) := by
      rw [h.tracker]; exact hn
    rw [Reader.log_token hn hk]
    cases hs : token.isSignificant with
    | true =>
      have := ih (writer.accept token) (h.significant hs)
      rw [Reader.lexer_after] at this
      simp [log_significant hw hk hs, this, h.tracker]
    | false =>
      have := ih writer (h.skipped hs)
      rw [Reader.lexer_after] at this
      simp [log_skipped hw hk hs, this]

/-- The log of the reader holds its significant tokens. -/
theorem Reader.map_log {reader : Reader} {tokens : List Token}
    (h : reader.tokensFrom [] = .ok tokens) :
    reader.log.map Prod.snd = tokens.filter Token.isSignificant := by
  induction reader using turns generalizing tokens with
  | failed reader error lexer hn => simp [tokensFrom_error hn] at h
  | ended reader token lexer hn hk =>
    rw [tokensFrom_end hn hk] at h
    cases h
    rw [log_end hn hk]
    rfl
  | turn reader token lexer hn hk ih =>
    rw [tokensFrom_nil_token hn hk] at h
    cases hrest : (reader.after token lexer).tokensFrom [] with
    | error error => simp [hrest, Except.map] at h
    | ok rest =>
      simp only [hrest, Except.map, Except.ok.injEq] at h
      subst h
      rw [log_token hn hk, List.map_append, ih hrest, List.filter_cons]
      cases token.isSignificant <;> simp

/-! ## The laws -/

theorem eq_ok_of_toOption {ε α : Type} {result : Except ε α} {value : α}
    (h : result.toOption = some value) : result = .ok value := by
  cases result with
  | error => cases h
  | ok => rw [Option.some.inj h]

theorem abreast_at_start (source : Text) (style : Style) :
    Abreast (.ofStyle style) (.ofText source) := ⟨rfl, rfl⟩

/-- Minifying a script is writing its significant tokens. -/
theorem minifyText_eq_map_tokens (source : Text) (style : Style) :
    minifyText source style = (tokens source).map fun tokens =>
      ((tokens.filter Token.isSignificant).foldl Writer.accept (.ofStyle style)).finish :=
  Writer.run_eq_map_tokensFrom _ (.ofText source) (abreast_at_start source style)

/-- A script can be minified if it can be read, whatever the style, and otherwise both give the
same error. The writer is handed the significant tokens of the script, each with its tracker in
the state that the reader has there, and nothing else is written. -/
theorem minifying_takes_the_turns_of_reading (source : Text) (style : Style) :
    (∀ error, minifyText source style = .error error ↔ tokens source = .error error) ∧
    ∀ read, tokens source = .ok read →
      (Writer.ofStyle style).log (.ofText source) = (Reader.ofText source).log ∧
      (Reader.ofText source).log.map Prod.snd = read.filter Token.isSignificant ∧
      minifyText source style =
        .ok ((read.filter Token.isSignificant).foldl Writer.accept (.ofStyle style)).finish := by
  rw [minifyText_eq_map_tokens]
  refine ⟨fun error => ?_, fun read h => ⟨?_, ?_, ?_⟩⟩
  · cases tokens source <;> simp [Except.map]
  · exact Writer.log_eq_log _ (.ofText source) (abreast_at_start source style)
  · exact Reader.map_log h
  · rw [h]
    rfl

/-- A slash at the start of a line divides for both of them. -/
theorem writer_and_reader_divide_on_a_new_line :
    (Writer.ofStyle .usual).log (.ofText "a\n/b/g".toList) =
        (Reader.ofText "a\n/b/g".toList).log ∧
      (Reader.ofText "a\n/b/g".toList).log.map (fun entry => entry.2.text) =
        [['a'], ['/'], ['b'], ['/'], ['g']] := by
  have hread : tokens "a\n/b/g".toList = .ok
      [⟨.identifier, ['a'], 0, false⟩, ⟨.lineBreak, ['\n'], 1, false⟩,
        ⟨.punctuator, ['/'], 2, true⟩, ⟨.identifier, ['b'], 3, false⟩,
        ⟨.punctuator, ['/'], 4, false⟩, ⟨.identifier, ['g'], 5, false⟩] :=
    eq_ok_of_toOption (by decide +kernel)
  obtain ⟨hlog, htokens, _⟩ :=
    (minifying_takes_the_turns_of_reading "a\n/b/g".toList .usual).2 _ hread
  refine ⟨hlog, ?_⟩
  have htexts := congrArg (List.map Token.text) htokens
  rw [List.map_map] at htexts
  exact htexts

end ScriptMinifier
