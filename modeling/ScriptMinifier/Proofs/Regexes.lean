-- Regular expressions are read item by item. The body is made of escapes, character classes and
-- plain bytes, all on one line, and the letters behind its closing slash are flags. The scan keeps
-- one mark, whether it stands in a character class, and this is all that the grammar asks for.
import ScriptMinifier.Proofs.Strings

namespace ScriptMinifier

open Character Relation

/-! ## The grammar -/

namespace Code

/-- All bytes from `start` up to `stop` pass the test, and the one at `stop` does not. -/
structure IsRun (code : Code) (accepts : Char → Bool) (start stop : Nat) : Prop where
  le : start ≤ stop
  inside : ∀ i, start ≤ i → i < stop → (code.peek i).any accepts = true
  ended : (code.peek stop).any accepts = false

/-- A backslash with the byte behind it, or a byte that is not special. Neither ends a line. -/
inductive IsAtom (code : Code) (special : List Char) : (start stop : Nat) → Prop where
  | escape {start : Nat} {c : Char} (backslash : code.peek start = some '\\')
      (escaped : code.peek (start + 1) = some c) (sameLine : isLineTerminator c = false) :
      IsAtom code special start (start + 2)
  | byte {start : Nat} {c : Char} (byte : code.peek start = some c)
      (plain : c ∉ '\\' :: special) (sameLine : isLineTerminator c = false) :
      IsAtom code special start (start + 1)

/-- One item of the body. In a character class a slash and an opening bracket are plain bytes. -/
inductive IsRegexItem (code : Code) : (start stop : Nat) → Prop where
  | atom {start stop : Nat} (atom : code.IsAtom ['/', '['] start stop) :
      IsRegexItem code start stop
  | charClass {start stop : Nat} (opened : code.peek start = some '[')
      (inside : ReflTransGen (code.IsAtom [']']) (start + 1) stop)
      (closed : code.peek stop = some ']') : IsRegexItem code start (stop + 1)

/-- From `next` on the body goes up to the closing slash at `last`. -/
structure ClosesAt (code : Code) (next last : Nat) : Prop where
  body : ReflTransGen code.IsRegexItem next last
  closing : code.peek last = some '/'

/-- The bytes from `start` up to `stop` are a slash, a body, a slash and all the flags. -/
def IsRegex (code : Code) (start stop : Nat) : Prop :=
  code.peek start = some '/' ∧
    ∃ last, code.ClosesAt (start + 1) last ∧ code.IsRun isRegexFlag (last + 1) stop

variable {code : Code} {accepts : Char → Bool} {special : List Char}
  {start stop other last next : Nat}

/-! ## There is one end -/

theorem IsRun.le_of_isRun (h : code.IsRun accepts start stop)
    (hother : code.IsRun accepts start other) : stop ≤ other := by
  by_contra hlt
  have hinside := h.inside other hother.le (by omega)
  rw [hother.ended] at hinside
  cases hinside

theorem IsRun.unique (h : code.IsRun accepts start stop)
    (hother : code.IsRun accepts start other) : stop = other :=
  Nat.le_antisymm (h.le_of_isRun hother) (hother.le_of_isRun h)

theorem rightUnique_isAtom : Relator.RightUnique (code.IsAtom special) := by
  intro start stop other hstop hother
  cases hstop <;> cases hother <;> grind

theorem not_isAtom_of_mem {c : Char} (hpeek : code.peek start = some c) (hc : c ∈ special)
    (hescape : c ≠ '\\') : ¬ code.IsAtom special start stop := by
  intro hatom
  cases hatom <;> grind

theorem rightUnique_isRegexItem : Relator.RightUnique code.IsRegexItem := by
  intro start stop other hstop hother
  cases hstop with
  | atom hatom =>
    cases hother with
    | atom hatom' => exact rightUnique_isAtom hatom hatom'
    | charClass hopened =>
      exact absurd hatom (not_isAtom_of_mem hopened (by decide) (by decide))
  | charClass hopened hinside hclosed =>
    cases hother with
    | atom hatom => exact absurd hatom (not_isAtom_of_mem hopened (by decide) (by decide))
    | charClass _ hinside' hclosed' =>
      rw [eq_of_stuck rightUnique_isAtom hinside hinside'
        (fun _ => not_isAtom_of_mem hclosed (by decide) (by decide))
        (fun _ => not_isAtom_of_mem hclosed' (by decide) (by decide))]

theorem not_isRegexItem_of_slash (hpeek : code.peek start = some '/') :
    ¬ code.IsRegexItem start stop := by
  intro hitem
  cases hitem with
  | atom hatom => exact not_isAtom_of_mem hpeek (by decide) (by decide) hatom
  | charClass hopened => simp [hpeek] at hopened

theorem ClosesAt.unique (h : code.ClosesAt next last) (hother : code.ClosesAt next other) :
    last = other :=
  eq_of_stuck rightUnique_isRegexItem h.body hother.body
    (fun _ => not_isRegexItem_of_slash h.closing)
    (fun _ => not_isRegexItem_of_slash hother.closing)

theorem IsRegex.unique (h : code.IsRegex start stop) (hother : code.IsRegex start other) :
    stop = other := by
  obtain ⟨_, last, hclosed, hflags⟩ := h
  obtain ⟨_, last', hclosed', hflags'⟩ := hother
  obtain rfl := hclosed.unique hclosed'
  exact hflags.unique hflags'

/-! ## A body stays on its line -/

/-- The bytes from `start` up to `stop` are there, and none of them ends a line. -/
def OnOneLine (code : Code) (start stop : Nat) : Prop :=
  start ≤ stop ∧ ∀ i, start ≤ i → i < stop →
    ∃ c, code.peek i = some c ∧ isLineTerminator c = false

theorem OnOneLine.trans {middle : Nat} (h : code.OnOneLine start middle)
    (h' : code.OnOneLine middle stop) : code.OnOneLine start stop := by
  refine ⟨Nat.le_trans h.1 h'.1, fun i hle hlt => ?_⟩
  rcases Nat.lt_or_ge i middle with hi | hi
  · exact h.2 i hle hi
  · exact h'.2 i hi hlt

theorem onOneLine_of_peek {c : Char} (hpeek : code.peek start = some c)
    (hc : isLineTerminator c = false) : code.OnOneLine start (start + 1) := by
  refine ⟨Nat.le_succ start, fun i hle hlt => ?_⟩
  obtain rfl : i = start := by omega
  exact ⟨c, hpeek, hc⟩

theorem onOneLine_of_steps {step : Nat → Nat → Prop}
    (hstep : ∀ start stop, step start stop → code.OnOneLine start stop)
    (h : ReflTransGen step start stop) : code.OnOneLine start stop := by
  induction h with
  | refl => exact ⟨Nat.le_refl start, fun i hle hlt => absurd hlt (by omega)⟩
  | tail _ hlast ih => exact ih.trans (hstep _ _ hlast)

theorem IsAtom.onOneLine (h : code.IsAtom special start stop) : code.OnOneLine start stop := by
  cases h with
  | escape hbackslash hescaped hline =>
    exact (onOneLine_of_peek hbackslash rfl).trans (onOneLine_of_peek hescaped hline)
  | byte hbyte _ hline => exact onOneLine_of_peek hbyte hline

theorem IsRegexItem.onOneLine (h : code.IsRegexItem start stop) : code.OnOneLine start stop := by
  cases h with
  | atom hatom => exact hatom.onOneLine
  | charClass hopened hinside hclosed =>
    have hmiddle := onOneLine_of_steps (fun _ _ => IsAtom.onOneLine) hinside
    exact (onOneLine_of_peek hopened rfl).trans (hmiddle.trans (onOneLine_of_peek hclosed rfl))

theorem ClosesAt.onOneLine (h : code.ClosesAt next last) : code.OnOneLine next last :=
  onOneLine_of_steps (fun _ _ => IsRegexItem.onOneLine) h.body

/-! ## From the grammar to the scan -/

theorem walk_eq {α : Type} {walk : Nat → α} {step : Nat → Nat → Prop}
    (hstep : ∀ start stop, step start stop → walk start = walk stop)
    (h : ReflTransGen step start stop) : walk start = walk stop := by
  induction h with
  | refl => rfl
  | tail _ hlast ih => exact ih.trans (hstep _ _ hlast)

variable {origin : Nat}

/-- The bytes that are not plain, in a character class or not. -/
def specials (inClass : Bool) : List Char := if inClass then [']'] else ['/', '[']

theorem regexFrom?_atom (inClass : Bool) (h : code.IsAtom (specials inClass) start stop) :
    code.regexFrom? origin inClass start = code.regexFrom? origin inClass stop := by
  cases h with
  | escape hbackslash hescaped hline =>
    rw [regexFrom?, hbackslash, hescaped]
    simp [hline]
  | byte hbyte hplain hline =>
    rw [regexFrom?, hbyte]
    cases inClass with
    | false =>
      simp only [specials, Bool.false_eq_true, if_false, List.mem_cons, List.not_mem_nil, or_false,
        not_or] at hplain
      simp [hplain, hline]
    | true =>
      simp only [specials, if_true, List.mem_cons, List.not_mem_nil, or_false, not_or] at hplain
      simp [hplain, hline]

theorem regexFrom?_classOpen {inClass : Bool} (hpeek : code.peek next = some '[') :
    code.regexFrom? origin inClass next = code.regexFrom? origin true (next + 1) := by
  rw [regexFrom?, hpeek]
  rfl

theorem regexFrom?_classClose (hpeek : code.peek next = some ']') :
    code.regexFrom? origin true next = code.regexFrom? origin false (next + 1) := by
  rw [regexFrom?, hpeek]
  rfl

theorem regexFrom?_item (h : code.IsRegexItem start stop) :
    code.regexFrom? origin false start = code.regexFrom? origin false stop := by
  cases h with
  | atom hatom => exact regexFrom?_atom false hatom
  | charClass hopened hinside hclosed =>
    rw [regexFrom?_classOpen hopened, ← regexFrom?_classClose hclosed]
    exact walk_eq (fun _ _ => regexFrom?_atom true) hinside

theorem exists_runFrom? {left count : Nat} (hleft : next + left = code.length)
    (hcount : count ≤ left)
    (hinside : ∀ i, next ≤ i → i < next + count → (code.peek i).any accepts = true) :
    ∃ total, code.runFrom? accepts next left count = some total ∧
      code.IsRun accepts next (next + total) := by
  rw [runFrom?]
  rcases Nat.lt_or_ge count left with hlt | hge
  · obtain ⟨c, hpeek⟩ : ∃ c, code.peek (next + count) = some c := by
      rw [peek, List.getElem?_eq_getElem (by omega)]
      exact ⟨_, rfl⟩
    simp only [hlt, if_true, hpeek, Option.bind_eq_bind, Option.bind_some]
    cases hc : accepts c with
    | true =>
      simp only [if_true]
      refine exists_runFrom? hleft hlt fun i hle hi => ?_
      rcases Nat.lt_or_ge i (next + count) with hi' | hi'
      · exact hinside i hle hi'
      · obtain rfl : i = next + count := by omega
        rw [hpeek, Option.any_some, hc]
    | false =>
      refine ⟨count, by simp, Nat.le_add_right _ _, hinside, ?_⟩
      rw [hpeek, Option.any_some, hc]
  · have hend : code.peek (next + count) = none := by
      rw [peek, List.getElem?_eq_none (by omega)]
      rfl
    refine ⟨count, by simp [Nat.not_lt.2 hge], Nat.le_add_right _ _, hinside, ?_⟩
    rw [hend]
    rfl
termination_by left - count

/-- A run of bytes is read up to its end. -/
theorem exists_run? (accepts : Char → Bool) (h : next ≤ code.length) :
    ∃ count, code.run? accepts next = some count ∧ code.IsRun accepts next (next + count) := by
  rw [run?, left?, if_pos h]
  exact exists_runFrom? (by omega) (Nat.zero_le _) fun i hle hlt => absurd hlt (by omega)

theorem regexFrom?_slash (origin : Nat) (hpeek : code.peek next = some '/') :
    ∃ stop, code.regexFrom? origin false next = some { next := stop } ∧
      code.IsRun isRegexFlag (next + 1) stop := by
  obtain ⟨count, hcount, hrun⟩ := exists_run? isRegexFlag (lt_length_of_peek hpeek)
  refine ⟨next + 1 + count, ?_, hrun⟩
  rw [regexFrom?, hpeek]
  simp [hcount]

/-! ## From the scan to the grammar -/

/-- From `next` on, in a character class or not, the body goes up to the closing slash at `last`. -/
def ClosesFrom (code : Code) : (inClass : Bool) → (next last : Nat) → Prop
  | false, next, last => code.ClosesAt next last
  | true, next, last => ∃ middle, ReflTransGen (code.IsAtom [']']) next middle ∧
    code.peek middle = some ']' ∧ code.ClosesAt (middle + 1) last

namespace ClosesFrom

theorem item {middle : Nat} (hitem : code.IsRegexItem next middle)
    (h : code.ClosesFrom false middle last) : code.ClosesFrom false next last :=
  ⟨.head hitem h.body, h.closing⟩

theorem classOpen (hopened : code.peek next = some '[')
    (h : code.ClosesFrom true (next + 1) last) : code.ClosesFrom false next last := by
  obtain ⟨middle, hinside, hclosed, hend⟩ := h
  exact item (.charClass hopened hinside hclosed) hend

theorem atom {inClass : Bool} {middle : Nat} (hatom : code.IsAtom (specials inClass) next middle)
    (h : code.ClosesFrom inClass middle last) : code.ClosesFrom inClass next last := by
  cases inClass with
  | false => exact item (.atom hatom) h
  | true =>
    obtain ⟨bracket, hinside, hend⟩ := h
    exact ⟨bracket, .head hatom hinside, hend⟩

theorem classClose (hclosed : code.peek next = some ']')
    (h : code.ClosesFrom false (next + 1) last) : code.ClosesFrom true next last :=
  ⟨next, .refl, hclosed, h⟩

end ClosesFrom

/-- The scan comes to the end of the flags behind the closing slash, or it fails. -/
theorem closesFrom_or_fails (origin : Nat) (inClass : Bool) (next : Nat) :
    (∃ last stop, code.ClosesFrom inClass next last ∧ code.IsRun isRegexFlag (last + 1) stop ∧
      code.regexFrom? origin inClass next = some { next := stop }) ∨
    ∃ stop, code.regexFrom? origin inClass next = code.fail? .openRegex origin stop := by
  fun_induction Code.regexFrom? code origin inClass next with
  | case1 inClass next hpeek => exact Or.inr ⟨next, rfl⟩
  | case2 inClass next c hpeek hc hlast => exact Or.inr ⟨next + 1, rfl⟩
  | case3 inClass next c hpeek hc d hnext hd => exact Or.inr ⟨next + 2, rfl⟩
  | case4 inClass next c hpeek hc d hnext hd ih =>
    obtain rfl : c = '\\' := by simpa using hc
    refine ih.imp_left fun ⟨last, stop, hclosed, hend⟩ => ⟨last, stop, ?_, hend⟩
    exact hclosed.atom (.escape hpeek hnext (by simpa using hd))
  | case5 inClass next c hpeek hc hslash =>
    obtain ⟨rfl, rfl⟩ : c = '/' ∧ inClass = false := by simpa using hslash
    obtain ⟨count, hcount, hflags⟩ := exists_run? isRegexFlag (lt_length_of_peek hpeek)
    refine Or.inl ⟨next, next + 1 + count, ⟨.refl, hpeek⟩, hflags, ?_⟩
    rw [hcount]
    rfl
  | case6 inClass next c hpeek hc hslash hopen ih =>
    obtain rfl : c = '[' := by simpa using hopen
    -- The scan takes every opening bracket for the start of a class, also in a class, where the
    -- mark is set already and the bracket is a plain byte.
    refine ih.imp_left fun ⟨last, stop, hclosed, hend⟩ => ⟨last, stop, ?_, hend⟩
    cases inClass with
    | false => exact .classOpen hpeek hclosed
    | true => exact hclosed.atom (.byte hpeek (by decide) rfl)
  | case7 inClass next c hpeek hc hslash hopen hclose ih =>
    obtain ⟨rfl, rfl⟩ : c = ']' ∧ inClass = true := by simpa using hclose
    exact ih.imp_left fun ⟨last, stop, hclosed, hend⟩ =>
      ⟨last, stop, .classClose hpeek hclosed, hend⟩
  | case8 inClass next c hpeek hc hslash hopen hclose hends => exact Or.inr ⟨next + 1, rfl⟩
  | case9 inClass next c hpeek hc hslash hopen hclose hends ih =>
    refine ih.imp_left fun ⟨last, stop, hclosed, hend⟩ => ⟨last, stop, ?_, hend⟩
    refine hclosed.atom (.byte hpeek ?_ (by simpa using hends))
    cases inClass <;> simp_all [specials]

theorem regex?_of_peek (hpeek : code.peek start = some '/') :
    code.regex? start = code.regexFrom? start false (start + 1) := by
  rw [regex?, step?_of_peek hpeek]
  rfl

theorem isRegex_or_fails (hpeek : code.peek start = some '/') :
    (∃ stop, code.IsRegex start stop ∧ code.regex? start = some { next := stop }) ∨
    ∃ stop, code.regex? start = code.fail? .openRegex start stop := by
  rw [regex?_of_peek hpeek]
  exact (closesFrom_or_fails start false (start + 1)).imp_left
    fun ⟨last, stop, hclosed, hflags, hstop⟩ => ⟨stop, ⟨hpeek, last, hclosed, hflags⟩, hstop⟩

theorem IsRegex.regex?_eq (h : code.IsRegex start stop) :
    code.regex? start = some { next := stop } := by
  obtain ⟨hpeek, last, hclosed, hflags⟩ := h
  obtain ⟨other, hother, hflags'⟩ := regexFrom?_slash start hclosed.closing
  calc code.regex? start
    _ = code.regexFrom? start false (start + 1) := regex?_of_peek hpeek
    _ = code.regexFrom? start false last := walk_eq (fun _ _ => regexFrom?_item) hclosed.body
    _ = some { next := other } := hother
    _ = some { next := stop } := by rw [hflags.unique hflags']

theorem reaches_regex?_iff_isRegex (hpeek : code.peek start = some '/') :
    Reaches stop (code.regex? start) ↔ code.IsRegex start stop := by
  constructor
  · intro h
    rcases isRegex_or_fails hpeek with ⟨other, hregex, hother⟩ | ⟨n, hfail⟩
    · rw [hother, reaches_some] at h
      exact h ▸ hregex
    · rw [hfail] at h
      exact absurd h (not_reaches_fail? _ _ _)
  · intro h
    rw [h.regex?_eq, reaches_some]

theorem fails_regex?_iff (hpeek : code.peek start = some '/') {position : Position}
    (hposition : code.position? start = some position) :
    Fails { kind := .openRegex, position } (code.regex? start) ↔
      ∀ stop, ¬ code.IsRegex start stop := by
  constructor
  · intro h stop hregex
    rw [hregex.regex?_eq] at h
    exact not_fails_some h
  · intro h
    rcases isRegex_or_fails hpeek with ⟨stop, hregex, _⟩ | ⟨n, hfail⟩
    · exact absurd hregex (h stop)
    · rw [hfail, fails_fail?_iff hposition]

/-- A line that ends before the closing slash leaves the expression open. -/
theorem not_isRegex_of_lineEnd {i : Nat} (hi : start < i)
    (hends : ∀ c, code.peek i = some c → isLineTerminator c = true)
    (hopen : ∀ last < i, ¬ code.ClosesAt (start + 1) last) : ¬ code.IsRegex start stop := by
  rintro ⟨_, last, hclosed, _⟩
  have hle : i ≤ last := by
    by_contra hlt
    exact hopen last (by omega) hclosed
  rcases Nat.eq_or_lt_of_le hle with rfl | hlt
  · exact absurd (hends _ hclosed.closing) (by decide)
  · obtain ⟨c, hpeek, hc⟩ := hclosed.onOneLine.2 i hi hlt
    rw [hends c hpeek] at hc
    cases hc

end Code

namespace Lexeme

/-- A slash starts a regular expression where it starts no comment. -/
theorem scan_of_slash {text : Text} (atLineStart : Bool) (hslash : text.head? ≠ some '/')
    (hstar : text.head? ≠ some '*') :
    scan .regex atLineStart ('/' :: text) = (.regex, regex ('/' :: text)) := by
  have hcomment : ∀ c, text.head? ≠ some c → ['/', c].isPrefixOf ('/' :: text) = false := by
    intro c hc
    cases text with
    | nil => rfl
    | cons d text =>
      have hne : c ≠ d := fun heq => hc (by rw [heq, List.head?_cons])
      simp [List.isPrefixOf, hne]
  rw [scan, startsBlockComment, startsLineComment, hcomment _ hslash, hcomment _ hstar]
  cases atLineStart <;> rfl

end Lexeme

/-! ## The law -/

/-- Where a slash stands among the bytes, a lexer that is set down there and takes it for the start
of a regular expression reads up to the offset where a body, its closing slash and all the flags
end. There is at most one such offset. Without one the error names the opening slash, and there is
none if the line ends, or the code does, before the closing slash. -/
theorem regexes_are_read_item_by_item {source : Text} {offset : Nat}
    (h : Code.peek source.bytes offset = some '/') (margin : Margin) :
    let code : Code := source.bytes
    let lexer : Lexer := { source, offset, rest := Text.dropBytes offset source, margin }
    let read := lexer.answer .regex (Lexeme.regex lexer.rest)
    let error : LexError := { kind := .openRegex, position := Position.resolve source offset }
    (∀ stop, Lexer.ReadsTo read .regex stop ↔ code.IsRegex offset stop) ∧
    (∀ stop other, code.IsRegex offset stop → code.IsRegex offset other → stop = other) ∧
    ((∀ stop, ¬ code.IsRegex offset stop) ↔ read.1 = .error error) ∧
    (∀ i, offset < i → (∀ c, code.peek i = some c → isLineTerminator c = true) →
      (∀ last < i, ¬ code.ClosesAt (offset + 1) last) → read.1 = .error error) ∧
    (code.peek (offset + 1) ≠ some '/' → code.peek (offset + 1) ≠ some '*' →
      lexer.next .regex = read) := by
  intro code lexer read error
  obtain ⟨tail, hstands⟩ := Stands.of_peek rfl h
  have hahead : lexer.rest = '/' :: tail := hstands.dropBytes_eq
  have hhalt : code.regex? offset =
      some ((Lexeme.regex lexer.rest).halt source offset lexer.rest) := by
    rw [hahead]
    exact Lexeme.regex?_bytes hstands rfl
  have herror : (∀ stop, ¬ code.IsRegex offset stop) ↔ read.1 = .error error := by
    rw [← Code.fails_regex?_iff h hstands.position?, hhalt, Lexer.answer_eq_error_iff]
  refine ⟨fun stop => ?_, fun stop other => Code.IsRegex.unique, herror, ?_, ?_⟩
  · rw [Lexer.readsTo_answer_iff, ← Code.reaches_regex?_iff_isRegex h, hhalt]
  · intro i hi hends hopen
    exact herror.1 fun stop => Code.not_isRegex_of_lineEnd hi hends hopen
  · intro hslash hstar
    have hnext : Stands source (offset + 1) tail := hstands.tail
    have hpeek : lexer.peek .regex = (.regex, Lexeme.regex lexer.rest) := by
      rw [Lexer.peek, hahead]
      exact Lexeme.scan_of_slash _ (fun hc => hslash ((hnext.peek_eq_some_iff rfl).2 hc))
        fun hc => hstar ((hnext.peek_eq_some_iff rfl).2 hc)
    rw [Lexer.next_eq_answer, hpeek]

/-- A class with a slash and a bracket in it, a character of two bytes behind a backslash, and the
flags; behind it an expression whose line ends right after a backslash. -/
theorem regex_with_a_class_and_one_whose_line_ends :
    let source : Text := "é=/[/[\\]]\\ü/gi;/x\\\n/".toList
    Code.IsRegex source.bytes 3 16 ∧
      ((Lexer.mk source 17 (Text.dropBytes 17 source) .inline).next .regex).1 =
        .error ⟨.openRegex, { offset := 17, line := 0, column := 15 }⟩ := by
  intro source
  have hpeek : Code.peek source.bytes 3 = some '/' := by decide +kernel
  have hcut : Code.peek source.bytes 17 = some '/' := by decide +kernel
  obtain ⟨hreads, _⟩ := regexes_are_read_item_by_item hpeek .inline
  obtain ⟨_, _, _, hlineEnd, hnext⟩ := regexes_are_read_item_by_item hcut .inline
  constructor
  · have htoken : ((Lexer.mk source 3 (Text.dropBytes 3 source) .inline).next .regex).1 =
        .ok ⟨.regex, Text.slice source 3 16, 3, false⟩ := eq_ok_of_toOption (by decide +kernel)
    exact (hreads 16).1 ⟨_, htoken, rfl, by decide +kernel⟩
  · have hfeed : Code.peek source.bytes 20 = some '\n' := by decide +kernel
    rw [hnext (by decide +kernel) (by decide +kernel)]
    refine (hlineEnd 20 (by decide) (by simp [hfeed, isLineTerminator]) ?_).trans ?_
    · intro last hlt hclosed
      have hle := hclosed.onOneLine.1
      have hclosing := hclosed.closing
      obtain rfl | rfl : last = 18 ∨ last = 19 := by omega
      · exact absurd hclosing (by decide +kernel)
      · exact absurd hclosing (by decide +kernel)
    · exact congrArg (fun position => Except.error (LexError.mk .openRegex position))
        (by decide +kernel)

end ScriptMinifier
