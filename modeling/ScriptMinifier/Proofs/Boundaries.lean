-- The lexer always goes on and never cuts a character. On the bytes of a script, each call has a
-- result, with no access out of range on the way, and it stops between two characters. Errors make
-- no difference, so the lexer can be used on after them, and a whole reading is over after at most
-- one call more than there are bytes.
import ScriptMinifier.Minify
import ScriptMinifier.Proofs.ByteLiterals

namespace ScriptMinifier

open Character

/-! ## The lexer among the bytes -/

def Token.inBytes (token : Token) : ByteToken :=
  { kind := token.kind, start := token.start, stop := token.stop
    followsBreak := token.followsBreak }

def ByteLexer.ofText (source : Text) : ByteLexer := { code := source.bytes }

namespace Lexer

def inBytes (lexer : Lexer) : ByteLexer :=
  { code := lexer.source.bytes
    next := lexer.offset
    breakPending := lexer.margin == .broken
    atLineStart := lexer.isAtLineStart }

@[simp]
theorem code_inBytes (lexer : Lexer) : lexer.inBytes.code = lexer.source.bytes := rfl

@[simp]
theorem next_inBytes (lexer : Lexer) : lexer.inBytes.next = lexer.offset := rfl

@[simp]
theorem source_next (lexer : Lexer) (slash : Slash) :
    (lexer.next slash).2.source = lexer.source :=
  rfl

/-- The offset of the lexer lies right before what it has not read. -/
def IsPlaced (lexer : Lexer) : Prop := Stands lexer.source lexer.offset lexer.rest

theorem isPlaced_ofText (source : Text) : (ofText source).IsPlaced := Stands.start source

theorem isPlaced_skip {lexer : Lexer} (h : lexer.IsPlaced) (kind : TokenKind) (scan : Scan) :
    (lexer.skip kind scan).IsPlaced :=
  (Stands.parts h scan.length).append

theorem isPlaced_next {lexer : Lexer} (h : lexer.IsPlaced) (slash : Slash) :
    (lexer.next slash).2.IsPlaced :=
  isPlaced_skip h _ _

/-- A call moves the lexer on, unless it stands at the end. -/
theorem moves_next {lexer : Lexer} (h : lexer.IsPlaced) (slash : Slash) :
    if lexer.source.bytes.length ≤ lexer.offset then
      (∃ token, (lexer.next slash).1 = .ok token ∧ token.kind = .endOfInput) ∧
        (lexer.next slash).2.offset = lexer.offset
    else lexer.offset < (lexer.next slash).2.offset := by
  have hlength := h.add_byteSize
  cases hrest : lexer.rest with
  | nil =>
    rw [hrest, Text.byteSize_nil, Nat.add_zero] at hlength
    rw [if_pos (Nat.le_of_eq hlength.symm)]
    simp only [next, peek, hrest, Lexeme.scan]
    exact ⟨⟨_, rfl, rfl⟩, rfl⟩
  | cons c text =>
    have hsize := c.utf8Size_pos
    rw [hrest, Text.byteSize_cons] at hlength
    rw [if_neg (by omega)]
    simp only [next, skip, peek, hrest]
    exact lt_reach (Lexeme.length_scan_pos slash lexer.isAtLineStart c text)

/-! ## One call -/

/-- A scan that gives no significant token can only set the marks about the line. -/
theorem inBytes_skip (lexer : Lexer) {kind : TokenKind} {scan : Scan}
    (h : (scan.fault.isNone && kind.isSignificant) = false) :
    (lexer.skip kind scan).inBytes =
      lexer.inBytes.halted (scan.halt lexer.source lexer.offset lexer.rest) := by
  obtain ⟨source, offset, rest, margin⟩ := lexer
  obtain ⟨length, fault, crossesLine⟩ := scan
  simp only [skip, inBytes, ByteLexer.halted, Scan.halt, marginAfter, isAtLineStart, h]
  cases crossesLine <;> cases margin <;> rfl

/-- A scan that gives a significant token clears them. -/
theorem inBytes_skip_significant (lexer : Lexer) {kind : TokenKind} {scan : Scan}
    (h : (scan.fault.isNone && kind.isSignificant) = true) :
    (lexer.skip kind scan).inBytes =
      { lexer.inBytes with
        next := (scan.halt lexer.source lexer.offset lexer.rest).next
        breakPending := false
        atLineStart := false } := by
  simp only [skip, inBytes, marginAfter, isAtLineStart, h]
  rfl

theorem answer_inBytes (lexer : Lexer) {kind : TokenKind} (hk : kind ≠ .endOfInput) (scan : Scan) :
    lexer.inBytes.answer kind (scan.halt lexer.source lexer.offset lexer.rest) =
      (Except.map Token.inBytes (match scan.fault with
        | some fault => .error (lexer.errorAt fault)
        | none => .ok (lexer.tokenAt kind scan)),
      (lexer.skip kind scan).inBytes) := by
  have herror : (scan.halt lexer.source lexer.offset lexer.rest).error =
      scan.fault.map lexer.errorAt := rfl
  rw [ByteLexer.answer, herror]
  cases hfault : scan.fault with
  | some fault =>
    rw [inBytes_skip lexer (by simp [hfault])]
    rfl
  | none =>
    have htoken : (lexer.tokenAt kind scan).inBytes =
        { kind, start := lexer.inBytes.next
          stop := (scan.halt lexer.source lexer.offset lexer.rest).next
          followsBreak := kind.isSignificant && lexer.inBytes.breakPending } := by
      rw [tokenAt, beq_false_of_ne hk, Bool.or_false]
      rfl
    rw [Except.map, htoken]
    cases hkind : kind.isSignificant with
    | true =>
      rw [inBytes_skip_significant lexer (by simp [hfault, hkind])]
      rfl
    | false =>
      rw [inBytes_skip lexer (by simp [hkind])]
      rfl

/-- A call among the bytes has a result, and it is the one among the characters. -/
theorem next?_inBytes {lexer : Lexer} (h : lexer.IsPlaced) (slash : Slash) :
    lexer.inBytes.next? slash =
      some ((lexer.next slash).1.map Token.inBytes, (lexer.next slash).2.inBytes) := by
  have hlength := h.add_byteSize
  unfold IsPlaced at h
  cases hrest : lexer.rest with
  | nil =>
    rw [hrest, Text.byteSize_nil, Nat.add_zero] at hlength
    have hskip : lexer.skip .endOfInput { length := 0 } = lexer := by
      simp [skip, Scan.lexeme, Scan.rest, marginAfter, TokenKind.isSignificant]
    simp only [ByteLexer.next?, next, peek, hrest, Lexeme.scan, hskip, code_inBytes, next_inBytes,
      hlength, Nat.le_refl, if_true]
    simp [tokenAt, Token.inBytes, Token.stop, Scan.lexeme, Except.map, inBytes, hlength]
  | cons c text =>
    have hinside : ¬ lexer.source.bytes.length ≤ lexer.offset := by
      have := c.utf8Size_pos
      rw [hrest, Text.byteSize_cons] at hlength
      omega
    have hscan : Code.scan? lexer.source.bytes slash lexer.isAtLineStart lexer.offset =
        some ((lexer.peek slash).1,
          (lexer.peek slash).2.halt lexer.source lexer.offset lexer.rest) := by
      rw [hrest] at h
      rw [peek, hrest]
      exact Lexeme.scan?_bytes slash _ h
    have hkind : (lexer.peek slash).1 ≠ .endOfInput := by
      rw [peek, hrest]
      exact Lexeme.kind_scan_ne_endOfInput slash _ c text
    rw [ByteLexer.next?]
    simp only [inBytes, hinside, if_false, hscan, Option.bind_eq_bind, Option.bind_some]
    exact congrArg some (answer_inBytes lexer hkind _)

end Lexer

/-! ## Call after call -/

/-- The lexer after one call for each slash, whatever the answers are. -/
def Lexer.afterCalls (lexer : Lexer) : List Slash → Lexer
  | [] => lexer
  | slash :: slashes => (lexer.next slash).2.afterCalls slashes

def ByteLexer.afterCalls? (lexer : ByteLexer) : List Slash → Option ByteLexer
  | [] => some lexer
  | slash :: slashes => do
    let (_, after) ← lexer.next? slash
    after.afterCalls? slashes

namespace Lexer

@[simp]
theorem source_afterCalls (lexer : Lexer) (slashes : List Slash) :
    (lexer.afterCalls slashes).source = lexer.source := by
  induction slashes generalizing lexer with
  | nil => rfl
  | cons slash slashes ih => rw [afterCalls, ih, source_next]

theorem isPlaced_afterCalls {lexer : Lexer} (h : lexer.IsPlaced) (slashes : List Slash) :
    (lexer.afterCalls slashes).IsPlaced := by
  induction slashes generalizing lexer with
  | nil => exact h
  | cons slash slashes ih => exact ih (isPlaced_next h slash)

/-- Every number of calls among the bytes has a result, with errors and without. -/
theorem afterCalls?_inBytes {lexer : Lexer} (h : lexer.IsPlaced) (slashes : List Slash) :
    lexer.inBytes.afterCalls? slashes = some (lexer.afterCalls slashes).inBytes := by
  induction slashes generalizing lexer with
  | nil => rfl
  | cons slash slashes ih =>
    rw [ByteLexer.afterCalls?, next?_inBytes h slash]
    exact ih (isPlaced_next h slash)

end Lexer

/-! ## What an answer names -/

/-- The offsets in an answer lie between characters: the text of a token can be cut out between
them, and the place of a token or of an error can be found. -/
def Code.Locates (code : Code) : Except LexError Token → Prop
  | .ok token =>
    code.isBoundary token.start = true ∧ code.isBoundary token.stop = true ∧
      code.text? token.start token.stop = some token.text.bytes ∧
      (code.position? token.start).isSome = true
  | .error error =>
    code.isBoundary error.position.offset = true ∧
      code.position? error.position.offset = some error.position

theorem Lexer.locates_next {lexer : Lexer} (h : lexer.IsPlaced) (slash : Slash) :
    Code.Locates lexer.source.bytes (lexer.next slash).1 := by
  rcases hpeek : lexer.peek slash with ⟨kind, scan⟩
  simp only [next, hpeek]
  cases hfault : scan.fault with
  | some fault =>
    have hfault := (Stands.parts h fault.start).append
    exact ⟨hfault.isBoundary, hfault.position?⟩
  | none =>
    have hparts := Stands.parts h scan.length
    refine ⟨h.isBoundary, hparts.append.isBoundary, hparts.text?, ?_⟩
    rw [show (lexer.tokenAt kind scan).start = lexer.offset from rfl, h.position?]
    rfl

/-! ## Loops that are cut off -/

theorem Lexer.length_rest_of_next {lexer after : Lexer} {slash : Slash} {token : Token}
    (h : lexer.next slash = (.ok token, after)) (hk : token.kind ≠ .endOfInput) :
    after.rest.length < lexer.rest.length := by
  have hless := lexer.length_rest_next slash (rest_ne_nil_of_next h hk)
  rwa [h] at hless

/-- The loop over the tokens, given up after so many calls. -/
def Reader.tokensWithin : (calls : Nat) → (reader : Reader) → (before : List Token) →
    Option (Except LexError (List Token))
  | 0, _, _ => none
  | calls + 1, reader, before =>
    match reader.next with
    | (.error error, _) => some (.error error)
    | (.ok token, lexer) =>
      if token.kind = .endOfInput then some (.ok before.reverse)
      else tokensWithin calls (reader.after token lexer) (token :: before)

theorem Reader.tokensWithin_eq {calls : Nat} {reader : Reader}
    (h : reader.lexer.rest.length < calls) (before : List Token) :
    tokensWithin calls reader before = some (reader.tokensFrom before) := by
  induction calls generalizing reader before with
  | zero => cases h
  | succ calls ih =>
    rw [tokensWithin]
    rcases hnext : reader.next with ⟨error | token, lexer⟩
    · rw [tokensFrom_error hnext]
    · by_cases hk : token.kind = .endOfInput
      · simp only [hk, if_true]
        rw [tokensFrom_end hnext hk]
      · have hless : lexer.rest.length < reader.lexer.rest.length :=
          Lexer.length_rest_of_next hnext hk
        simp only [hk, if_false]
        rw [tokensFrom_token hnext hk, ih]
        rw [lexer_after]
        omega

/-- The loop that writes a script, given up after so many calls. -/
def Writer.runWithin : (calls : Nat) → (writer : Writer) → (lexer : Lexer) →
    Option (Except LexError Text)
  | 0, _, _ => none
  | calls + 1, writer, lexer =>
    match lexer.next writer.tracker.slash with
    | (.error error, _) => some (.error error)
    | (.ok token, rest) =>
      if token.kind = .endOfInput then some (.ok writer.finish)
      else runWithin calls (if token.isSignificant then writer.accept token else writer) rest

theorem Writer.runWithin_eq {calls : Nat} {lexer : Lexer} (h : lexer.rest.length < calls)
    (writer : Writer) : runWithin calls writer lexer = some (writer.run lexer) := by
  induction calls generalizing lexer writer with
  | zero => cases h
  | succ calls ih =>
    rw [runWithin]
    rcases hnext : lexer.next writer.tracker.slash with ⟨error | token, rest⟩
    · rw [run_error hnext]
    · by_cases hk : token.kind = .endOfInput
      · simp only [hk, if_true]
        rw [run_end hnext hk]
      · have hless : rest.rest.length < lexer.rest.length := Lexer.length_rest_of_next hnext hk
        simp only [hk, if_false]
        rw [run_token hnext hk, ih]
        omega

/-! ## The law -/

/-- The lexer always goes on and never cuts a character, also when it is used on after errors and
after the end. Whatever a slash stands for at each call, every call among the bytes has a result,
with no access out of range on the way, and it is the result among the characters. It stops between
two characters of the script, and further on than before unless it stood at the end, where it gives
the token of the end. The tokens and errors that it gives can be located. So reading a script and
minifying it are over after at most one call more than there are bytes. -/
theorem lexing_goes_on_between_characters (source : Text) :
    (∀ (slashes : List Slash) (slash : Slash),
      let lexer := (Lexer.ofText source).afterCalls slashes
      let call := lexer.next slash
      (ByteLexer.ofText source).afterCalls? slashes = some lexer.inBytes ∧
      lexer.inBytes.next? slash = some (call.1.map Token.inBytes, call.2.inBytes) ∧
      call.2.offset ≤ source.bytes.length ∧
      Code.isBoundary source.bytes call.2.offset = true ∧
      (if source.bytes.length ≤ lexer.offset then
        (∃ token, call.1 = .ok token ∧ token.kind = .endOfInput) ∧ call.2.offset = lexer.offset
      else lexer.offset < call.2.offset) ∧
      Code.Locates source.bytes call.1) ∧
    Reader.tokensWithin (source.bytes.length + 1) (.ofText source) [] = some (tokens source) ∧
    ∀ style, Writer.runWithin (source.bytes.length + 1) (.ofStyle style) (.ofText source) =
      some (minifyText source style) := by
  have hshort : source.length < source.bytes.length + 1 := by
    have := Text.length_le_byteSize source
    rw [Text.length_bytes]
    omega
  refine ⟨fun slashes slash => ?_, Reader.tokensWithin_eq hshort [], fun style =>
    Writer.runWithin_eq hshort (.ofStyle style)⟩
  intro lexer call
  have hstart := Lexer.isPlaced_ofText source
  have hplaced : lexer.IsPlaced := Lexer.isPlaced_afterCalls hstart slashes
  have hafter : call.2.IsPlaced := Lexer.isPlaced_next hplaced slash
  have hsource : lexer.source = source := Lexer.source_afterCalls (Lexer.ofText source) slashes
  refine ⟨Lexer.afterCalls?_inBytes hstart slashes, Lexer.next?_inBytes hplaced slash, ?_⟩
  rw [← hsource]
  refine ⟨?_, hafter.isBoundary, Lexer.moves_next hplaced slash, Lexer.locates_next hplaced slash⟩
  exact Nat.le.intro hafter.add_byteSize

end ScriptMinifier
