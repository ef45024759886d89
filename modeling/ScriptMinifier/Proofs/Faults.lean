-- Errors point at the literal or comment that is at fault. What is nested in a template keeps its
-- own place, so only a template can fail behind its start, and the text at that place tells what
-- the fault can be. When a script cannot be read, the tokens before the failed call tile it up to
-- the place where the lexer stands.
import ScriptMinifier.Proofs.Boundaries
import ScriptMinifier.Proofs.NumberGrammar
import ScriptMinifier.Proofs.Tiling

namespace ScriptMinifier

open Character

/-! ## What a fault looks like -/

namespace LexError.Kind

/-- What is next, given by its first two characters or bytes, can have this fault. -/
def ShownBy (first second : Option Char) : LexError.Kind → Prop
  | .malformedNumber =>
    first.any isDigit = true ∨ first = some '.' ∧ second.any isDigit = true
  | .openComment => first = some '/' ∧ second = some '*'
  | .openContinuation | .openString => first.any Lexeme.isQuote = true
  | .openRegex => first = some '/' ∧ second ≠ some '*'
  | .openTemplate => first = some '`'

/-- The two faults of a string. -/
def isOfString : LexError.Kind → Bool
  | .openContinuation | .openString => true
  | _ => false

variable {first second : Option Char} {kind other : LexError.Kind}

theorem ShownBy.exists_first (h : kind.ShownBy first second) :
    ∃ c, first = some c ∧ isAscii c = true := by
  cases first with
  | none => cases kind <;> simp [ShownBy] at h
  | some c =>
    refine ⟨c, rfl, ?_⟩
    cases kind with
    | malformedNumber =>
      rcases h with h | ⟨h, _⟩
      · exact asciiOnly_isDigit c h
      · exact Option.some.inj h ▸ rfl
    | openComment | openRegex => exact Option.some.inj h.1 ▸ rfl
    | openContinuation | openString => exact asciiOnly_isQuote c h
    | openTemplate => exact Option.some.inj h ▸ rfl

/-- What is next tells the fault, up to the two of a string. -/
theorem ShownBy.unique (h : kind.ShownBy first second) (hother : other.ShownBy first second) :
    other = kind ∨ other.isOfString = true ∧ kind.isOfString = true := by
  obtain ⟨c, rfl, _⟩ := h.exists_first
  have hslash : isDigit '/' = false ∧ Lexeme.isQuote '/' = false := ⟨rfl, rfl⟩
  have hbacktick : isDigit '`' = false ∧ Lexeme.isQuote '`' = false := ⟨rfl, rfl⟩
  have hquote : Lexeme.isQuote c = true → isDigit c = false ∧ c ≠ '.' := by
    simp only [Lexeme.isQuote, Bool.or_eq_true, beq_iff_eq]
    rintro (rfl | rfl) <;> decide
  cases kind <;> cases other <;> grind [ShownBy, isOfString]

end LexError.Kind

/-- The text at the place of the fault is that of a literal or comment which can have it. -/
def Fault.IsShown (text : Text) (fault : Fault) : Prop :=
  fault.kind.ShownBy (text.drop fault.start).head? (text.drop fault.start).tail.head?

/-- A fault of a part is shown where the part stands. -/
theorem Fault.IsShown.within {whole text : Text} {read : Nat} {fault : Fault}
    (hread : whole.drop read = text) (h : fault.IsShown text) :
    Fault.IsShown whole { fault with start := read + fault.start } := by
  unfold IsShown at *
  rwa [← List.drop_drop, hread]

/-! ## The faults of the scanners -/

namespace Lexeme

variable {text : Text} {fault : Fault}

theorem fault_blockComment (h : (blockComment text).fault = some fault) :
    fault = { kind := .openComment } := by
  unfold blockComment at h
  split at h
  · cases h
  · exact (Option.some.inj h).symm

theorem fault_quotedFrom {quote : Char} {read : Nat}
    (h : (quotedFrom quote read text).fault = some fault) :
    fault = { kind := .openString } ∨ fault = { kind := .openContinuation } := by
  fun_induction quotedFrom quote read text with
  | case1 => exact Or.inl (Option.some.inj h).symm
  | case2 => exact Or.inr (Option.some.inj h).symm
  | case3 read text ih => exact ih h
  | case4 read c text hc ih => exact ih h
  | case5 => cases h
  | case6 => exact Or.inl (Option.some.inj h).symm
  | case7 read c text hlast hpair hsingle hquote hline ih => exact ih h

theorem fault_regexFrom {inClass : Bool} {read : Nat}
    (h : (regexFrom inClass read text).fault = some fault) : fault = { kind := .openRegex } := by
  fun_induction regexFrom inClass read text with
  | case1 | case2 | case3 | case6 => exact (Option.some.inj h).symm
  | case4 inClass read c text hline ih => exact ih h
  | case5 => cases h
  | case7 inClass read c text hlast hpair hslash hline ih => exact ih h

theorem fault_number? {scanned : Scan} (h : number? text = some scanned)
    (hfault : scanned.fault = some fault) : fault = { kind := .malformedNumber } := by
  rcases number?_cases h with ⟨letter, rest, accepts, rfl, hletter, rfl⟩ | ⟨_, rfl⟩
  · obtain ⟨part, later, _, _, hradix⟩ :=
      radix_eq (not_accepts_underscore hletter).2 '0' letter rest
    rcases hradix with ⟨_, n, hscan⟩ | ⟨_, _, hscan⟩
    · rw [hscan] at hfault
      exact (Option.some.inj hfault).symm
    · rw [hscan] at hfault
      cases hfault
  · obtain ⟨whole, rest, _, _, hdecimal⟩ := exists_decimalOf text
    rcases hdecimal with ⟨_, n, hscan⟩ | ⟨body, _, _, hscan⟩
    · rw [hscan] at hfault
      exact (Option.some.inj hfault).symm
    · rw [hscan] at hfault
      cases hfault

/-- A number starts with a digit, or with a dot and a digit. -/
theorem shownBy_of_number? {scanned : Scan} (h : number? text = some scanned) :
    LexError.Kind.ShownBy text.head? text.tail.head? .malformedNumber := by
  unfold number? at h
  split at h
  · exact Or.inl rfl
  · next c rest =>
    split at h
    · next hc => exact Or.inr ⟨rfl, hc⟩
    · cases h
  · next c rest _ _ =>
    split at h
    · next hc => exact Or.inl hc
    · cases h
  · cases h

/-! ## Templates -/

theorem isShown_quoted {c : Char} (hc : isQuote c = true)
    (h : (quoted (c :: text)).fault = some fault) :
    fault.IsShown (c :: text) ∧ fault.kind.isOfString = true ∧ fault.start = 0 := by
  rcases fault_quotedFrom h with rfl | rfl
  · exact ⟨hc, rfl, rfl⟩
  · exact ⟨hc, rfl, rfl⟩

theorem isShown_blockComment (hstarts : ['/', '*'].isPrefixOf text = true)
    (h : (blockComment text).fault = some fault) :
    fault.IsShown text ∧ fault.kind = .openComment ∧ fault.start = 0 := by
  obtain ⟨rest, rfl⟩ := List.isPrefixOf_iff_prefix.1 hstarts
  obtain rfl := fault_blockComment h
  exact ⟨⟨rfl, rfl⟩, rfl, rfl⟩

/-- The faults that a template can have, its own and those of what is nested in it. -/
def isOfTemplate (kind : LexError.Kind) : Bool :=
  kind == .openTemplate || kind == .openComment || kind.isOfString

theorem isShown_substitutionItem (h : (substitutionItem text).fault = some fault) :
    fault.IsShown text ∧ isOfTemplate fault.kind = true := by
  unfold substitutionItem at h
  split at h
  · obtain ⟨hshown, hkind, _⟩ := isShown_blockComment (by rfl) h
    exact ⟨hshown, by rw [hkind]; rfl⟩
  · cases h
  · split at h
    · next hc =>
      obtain ⟨hshown, hkind, _⟩ := isShown_quoted hc h
      exact ⟨hshown, by simp [isOfTemplate, hkind]⟩
    · cases h
  · cases h

theorem drop_add {whole ahead : Text} {read : Nat} (h : whole.drop read = ahead) (n : Nat) :
    whole.drop (read + n) = ahead.drop n := by
  rw [← List.drop_drop, h]

/-- A template fails at its own start, or where something nested in it fails. The text from the
start of the template on is `whole`, and `read` characters of it have been read. -/
theorem isShown_templateFrom (depth read : Nat) (crossed : Bool) (text : Text) :
    ∀ (whole : Text) (fault : Fault), whole.head? = some '`' → whole.drop read = text →
      (templateFrom depth read crossed text).fault = some fault →
      fault.IsShown whole ∧ isOfTemplate fault.kind = true := by
  fun_induction templateFrom depth read crossed text with
  | case1 | case2 =>
    intro whole fault hwhole hread h
    obtain rfl := Option.some.inj h
    exact ⟨hwhole, rfl⟩
  | case3 read crossed c rest ih | case4 read crossed rest ih =>
    intro whole fault hwhole hread h
    exact ih whole fault hwhole (drop_add hread 2) h
  | case5 =>
    intro whole fault hwhole hread h
    cases h
  | case6 read crossed c rest _ _ _ _ ih | case7 read crossed depth rest ih
  | case8 read crossed depth rest ih =>
    intro whole fault hwhole hread h
    exact ih whole fault hwhole (drop_add hread 1) h
  | case9 read crossed depth c rest hopen hclose item hfault outer ih =>
    -- A nested template starts a scan of its own, and its fault is moved to where it stands.
    intro whole fault hwhole hread h
    obtain ⟨inner, hinner, rfl⟩ := Option.map_eq_some_iff.1 h
    have hshown : inner.IsShown (c :: rest) ∧ isOfTemplate inner.kind = true := by
      simp only [item] at hinner
      split at hinner
      · next hc => exact ih (c :: rest) inner (by simpa using hc) rfl hinner
      · exact isShown_substitutionItem hinner
    exact ⟨hshown.1.within hread, hshown.2⟩
  | case10 read crossed depth c rest hopen hclose item hfault ih ihrest =>
    intro whole fault hwhole hread h
    have hpos : 0 < item.length := by
      simpa [item] using length_item_pos c rest
    refine ihrest whole fault hwhole ?_ h
    rw [drop_add hread]
    obtain ⟨n, hn⟩ := Nat.exists_eq_succ_of_ne_zero (Nat.ne_of_gt hpos)
    rw [hn]
    rfl

/-! ## Any lexeme -/

/-- Where a fault stands in the text that a lexeme starts. It stands at the start, unless it is
nested in a template, and there no regular expression and no number is read. -/
structure Places (slash : Slash) (text : Text) (fault : Fault) : Prop where
  shown : fault.IsShown text
  nested : fault.start ≠ 0 → text.head? = some '`'
  regex : fault.kind = .openRegex → fault.start = 0 ∧ slash = .regex
  number : fault.kind = .malformedNumber → fault.start = 0

theorem places_of_start {slash : Slash} (hshown : fault.IsShown text) (hstart : fault.start = 0)
    (hregex : fault.kind = .openRegex → slash = .regex) : Places slash text fault :=
  ⟨hshown, fun h => absurd hstart h, fun h => ⟨hstart, hregex h⟩, fun _ => hstart⟩

theorem places_template {slash : Slash} (h : (template ('`' :: text)).fault = some fault) :
    Places slash ('`' :: text) fault := by
  obtain ⟨hshown, hkind⟩ := isShown_templateFrom 0 1 false text ('`' :: text) fault rfl rfl h
  refine ⟨hshown, fun _ => rfl, fun hregex => ?_, fun hnumber => ?_⟩
  · rw [hregex] at hkind
    cases hkind
  · rw [hnumber] at hkind
    cases hkind

theorem places_scan {slash : Slash} {atLineStart : Bool}
    (h : (scan slash atLineStart text).2.fault = some fault) : Places slash text fault := by
  cases text with
  | nil => cases h
  | cons c text =>
    rw [scan] at h
    split at h
    · cases h
    split at h
    · next hcomment =>
      obtain ⟨hshown, hkind, hstart⟩ := isShown_blockComment hcomment h
      exact places_of_start hshown hstart (by simp [hkind])
    next hcomment =>
    split at h
    · cases h
    rw [significant] at h
    split at h
    · next hquote =>
      obtain ⟨hshown, hkind, hstart⟩ := isShown_quoted hquote h
      refine places_of_start hshown hstart fun hregex => ?_
      rw [hregex] at hkind
      cases hkind
    split at h
    · next hbacktick =>
      obtain rfl : c = '`' := by simpa using hbacktick
      exact places_template h
    split at h
    · next hslash =>
      obtain ⟨rfl, rfl⟩ : c = '/' ∧ slash = .regex := by simpa using hslash
      obtain rfl := fault_regexFrom h
      refine places_of_start ⟨rfl, fun hstar => ?_⟩ rfl fun _ => rfl
      obtain ⟨rest, rfl⟩ := List.head?_eq_some_iff.1 hstar
      exact hcomment rfl
    split at h
    · next scanned hnumber =>
      obtain rfl := fault_number? hnumber h
      exact places_of_start (shownBy_of_number? hnumber) rfl (by simp)
    · unfold punctuatorOrWord at h
      split at h <;> cases h

end Lexeme

/-! ## The place of an error -/

namespace Stands

variable {source ahead : Text} {offset : Nat}

/-- The bytes at an offset show a fault if the text there does. -/
theorem shownBy {kind : LexError.Kind} (h : Stands source offset ahead)
    (hshown : kind.ShownBy ahead.head? ahead.tail.head?) :
    kind.ShownBy (Code.peek source.bytes offset) (Code.peek source.bytes (offset + 1)) := by
  obtain ⟨c, hhead, hc⟩ := hshown.exists_first
  obtain ⟨tail, rfl⟩ := List.head?_eq_some_iff.1 hhead
  have hnext : Stands source (offset + 1) tail := by
    simpa [utf8Size_of_isAscii hc] using h.tail
  rw [h.peek_ascii hc]
  cases kind with
  | malformedNumber =>
    exact hshown.imp_right fun ⟨hdot, hdigit⟩ =>
      ⟨hdot, (hnext.peek_any asciiOnly_isDigit).trans hdigit⟩
  | openComment => exact ⟨hshown.1, (hnext.peek_eq_some_iff rfl).2 hshown.2⟩
  | openRegex => exact ⟨hshown.1, fun hstar => hshown.2 ((hnext.peek_eq_some_iff rfl).1 hstar)⟩
  | openContinuation | openString | openTemplate => exact hshown

end Stands

/-- Where an error lies in a script, if the lexer was asked for the next token at `offset`. -/
structure LexError.IsLocated (source : Text) (offset : Nat) (slash : Slash) (error : LexError) :
    Prop where
  notBefore : offset ≤ error.position.offset
  inside : error.position.offset < source.bytes.length
  nested : error.position.offset ≠ offset → Code.peek source.bytes offset = some '`'
  shown : error.kind.ShownBy (Code.peek source.bytes error.position.offset)
    (Code.peek source.bytes (error.position.offset + 1))
  regex : error.kind = .openRegex → error.position.offset = offset ∧ slash = .regex
  number : error.kind = .malformedNumber → error.position.offset = offset
  resolved : error.position = Position.resolve source error.position.offset

namespace Lexer

theorem exists_fault_of_next {lexer : Lexer} {slash : Slash} {error : LexError}
    (h : (lexer.next slash).1 = .error error) :
    ∃ fault, (lexer.peek slash).2.fault = some fault ∧ error = lexer.errorAt fault := by
  cases hfault : (lexer.peek slash).2.fault with
  | none =>
    rw [next_of_fault_none rfl hfault] at h
    cases h
  | some fault =>
    rw [next_of_fault rfl hfault] at h
    exact ⟨fault, rfl, (Except.error.inj h).symm⟩

theorem isLocated_of_next {lexer : Lexer} (hplaced : lexer.IsPlaced) {slash : Slash}
    {error : LexError} (h : (lexer.next slash).1 = .error error) :
    error.IsLocated lexer.source lexer.offset slash := by
  obtain ⟨fault, hfault, rfl⟩ := exists_fault_of_next h
  have hplaces : Lexeme.Places slash lexer.rest fault := Lexeme.places_scan hfault
  have hstands : Stands lexer.source (lexer.offset + Text.byteSize (lexer.rest.take fault.start))
      (lexer.rest.drop fault.start) := (Stands.parts hplaced fault.start).append
  have hstart : fault.start = 0 → (lexer.errorAt fault).position.offset = lexer.offset := by
    intro hzero
    simp [errorAt, Position.resolve, hzero]
  have hshown := hstands.shownBy hplaces.shown
  obtain ⟨c, hpeek, _⟩ := hshown.exists_first
  refine ⟨Nat.le_add_right _ _, Code.lt_length_of_peek hpeek, fun hne => ?_, hshown,
    fun hregex => ⟨hstart (hplaces.regex hregex).1, (hplaces.regex hregex).2⟩,
    fun hnumber => hstart (hplaces.number hnumber), rfl⟩
  have hbacktick := hplaces.nested fun hzero => hne (hstart hzero)
  exact (Stands.peek_eq_some_iff rfl hplaced).2 hbacktick

end Lexer

/-! ## The tokens before an error -/

namespace Reader

/-- One reader comes to another over these tokens. -/
inductive Reads : Reader → List Token → Reader → Prop where
  | refl (reader : Reader) : Reads reader [] reader
  | token {reader last : Reader} {token : Token} {lexer : Lexer} {read : List Token}
      (next : reader.next = (.ok token, lexer)) (more : token.kind ≠ .endOfInput)
      (later : Reads (reader.after token lexer) read last) : Reads reader (token :: read) last

/-- A reading that fails has come to a call that fails. -/
theorem exists_reads_of_error {reader : Reader} {error : LexError}
    (h : reader.tokensFrom [] = .error error) :
    ∃ read last, reader.Reads read last ∧ last.next.1 = .error error := by
  induction reader using turns with
  | failed reader error' lexer hn =>
    rw [tokensFrom_error hn] at h
    obtain rfl := Except.error.inj h
    exact ⟨[], reader, .refl reader, by rw [hn]⟩
  | ended reader token lexer hn hk =>
    rw [tokensFrom_end hn hk] at h
    cases h
  | turn reader token lexer hn hk ih =>
    rw [tokensFrom_nil_token hn hk] at h
    cases hrest : (reader.after token lexer).tokensFrom [] with
    | ok rest => simp [hrest, Except.map] at h
    | error error' =>
      obtain rfl : error' = error := by simpa [hrest, Except.map] using h
      obtain ⟨read, last, hread, hlast⟩ := ih hrest
      exact ⟨token :: read, last, .token hn hk hread, hlast⟩

namespace Reads

variable {reader last : Reader} {read : List Token}

theorem ne_endOfInput (h : reader.Reads read last) : ∀ token ∈ read, token.kind ≠ .endOfInput := by
  induction h with
  | refl => simp
  | token _ hmore _ ih => exact List.forall_mem_cons.2 ⟨hmore, ih⟩

/-- The lexer has been called with some choice of slashes, and has moved on by the tokens. -/
theorem exists_calls (h : reader.Reads read last) :
    ∃ slashes, tokensBeforeError (reader.lexer.calls slashes) = read ∧
      last.lexer = reader.lexer.afterCalls slashes := by
  induction h with
  | refl reader => exact ⟨[], rfl, rfl⟩
  | @token reader last token lexer read hnext _ _ ih =>
    obtain ⟨slashes, hread, hlast⟩ := ih
    rw [lexer_after] at hread hlast
    refine ⟨reader.tracker.slash :: slashes, ?_, ?_⟩
    · rw [Lexer.calls, show reader.lexer.next reader.tracker.slash = _ from hnext,
        tokensBeforeError, hread]
    · rw [Lexer.afterCalls, show reader.lexer.next reader.tracker.slash = _ from hnext, hlast]

theorem offset_eq (h : reader.Reads read last) :
    last.lexer.offset = reader.lexer.offset + Text.byteSize (read.flatMap Token.text) := by
  induction h with
  | refl => simp
  | token hnext _ _ ih =>
    have htakes := Lexer.takes_of_next hnext
    rw [lexer_after] at ih
    rw [ih, htakes.offset, List.flatMap_cons, Text.byteSize_append, Nat.add_assoc]

end Reads

end Reader

/-- The last token ends where the text of all of them does. -/
theorem Tiles.stop_getLast? {behind ahead : Text} {read : List Token}
    (h : Tiles behind ahead read) :
    read.getLast?.elim (Text.byteSize behind) Token.stop =
      Text.byteSize behind + Text.byteSize (read.flatMap Token.text) := by
  induction h with
  | nil => simp
  | @cons behind ahead left token later hstart _ _ _ _ _ _ ih =>
    rw [List.flatMap_cons, Text.byteSize_append, ← Nat.add_assoc, ← Text.byteSize_append, ← ih]
    cases later with
    | nil => simp [Token.stop, hstart]
    | cons next later =>
      rw [List.getLast?_cons_cons, List.getLast?_cons, Option.elim_some, Option.elim_some]

/-! ## The law -/

/-- Whatever was read before, an error lies within the script and not before the place where the
lexer was asked for a token. It lies right there, unless a template starts there. The bytes where it
lies tell which fault it is, up to the two of a string, and its line and column are those of that
place. When a script cannot be read, the tokens up to the call that fails tile it from its first
byte to the place of that call. -/
theorem errors_lie_where_the_fault_starts (source : Text) :
    (∀ (slashes : List Slash) (slash : Slash) (error : LexError),
      let lexer := (Lexer.ofText source).afterCalls slashes
      (lexer.next slash).1 = .error error →
        error.IsLocated source lexer.offset slash ∧
        ∀ kind : LexError.Kind,
          kind.ShownBy (Code.peek source.bytes error.position.offset)
            (Code.peek source.bytes (error.position.offset + 1)) →
          kind = error.kind ∨ kind.isOfString = true ∧ error.kind.isOfString = true) ∧
    ∀ error, tokens source = .error error → ∃ read reader slashes,
      (Reader.ofText source).Reads read reader ∧
      reader.lexer = (Lexer.ofText source).afterCalls slashes ∧
      (reader.lexer.next reader.tracker.slash).1 = .error error ∧
      (∀ token ∈ read.head?, token.start = 0) ∧
      (read.IsChain fun token next => next.start = token.stop) ∧
      read.getLast?.elim 0 Token.stop = reader.lexer.offset ∧
      (∀ token ∈ read, token.text ≠ [] ∧
        token.text = Text.slice source token.start token.stop) ∧
      read.flatMap Token.text = Text.takeBytes reader.lexer.offset source := by
  have hplaced := Lexer.isPlaced_ofText source
  constructor
  · intro slashes slash error lexer herror
    have hlocated := Lexer.isLocated_of_next (Lexer.isPlaced_afterCalls hplaced slashes) herror
    rw [Lexer.source_afterCalls] at hlocated
    exact ⟨hlocated, fun kind hkind => hlocated.shown.unique hkind⟩
  · intro error herror
    obtain ⟨read, reader, hread, hfails⟩ := Reader.exists_reads_of_error herror
    obtain ⟨slashes, hcalls, hlexer⟩ := hread.exists_calls
    have htiles : Tiles [] source read := hcalls ▸ (Lexer.ofText source).tiles_calls [] rfl slashes
    have hoffset : reader.lexer.offset = Text.byteSize (read.flatMap Token.text) :=
      hread.offset_eq.trans (Nat.zero_add _)
    refine ⟨read, reader, slashes, hread, hlexer, hfails, htiles.start_of_head?,
      htiles.isChain_stop, ?_, fun token htoken => ⟨?_, htiles.text_eq_slice token htoken⟩, ?_⟩
    · rw [hoffset, ← Nat.zero_add (Text.byteSize _)]
      exact htiles.stop_getLast?
    · exact (htiles.ended_or_filled token htoken).resolve_left (hread.ne_endOfInput token htoken)
    · obtain ⟨left, hleft⟩ := htiles.exists_left
      rw [hoffset, ← hleft, Text.takeBytes_byteSize_append]

/-- A string that its line leaves open, in a template that starts earlier. -/
theorem open_string_in_a_template_is_named :
    let source : Text := "x=`é$\x7b 'a\n".toList
    let error : LexError := ⟨.openString, { offset := 8, line := 0, column := 7 }⟩
    tokens source = .error error ∧ ∃ read reader, (Reader.ofText source).Reads read reader ∧
      read.flatMap Token.text = Text.takeBytes reader.lexer.offset source ∧
      error.IsLocated source reader.lexer.offset reader.tracker.slash := by
  intro source error
  have hfails : (match tokens source with
      | .error found => decide (found = error)
      | .ok _ => false) = true := by decide +kernel
  have htokens : tokens source = .error error := by
    split at hfails
    · next found hfound => rw [hfound, of_decide_eq_true hfails]
    · cases hfails
  obtain ⟨hcalls, hreads⟩ := errors_lie_where_the_fault_starts source
  obtain ⟨read, reader, slashes, hread, hlexer, herror, _, _, _, _, htext⟩ := hreads error htokens
  refine ⟨htokens, read, reader, hread, htext, ?_⟩
  rw [hlexer] at herror ⊢
  exact (hcalls slashes _ error herror).1

end ScriptMinifier
