-- The scanners on bytes and on characters agree. Each scan of bytes has a result, it stops at the
-- offset behind the characters that the scan of characters has counted, and a fault has the place
-- that was counted for it. Where bytes are stepped over one by one, those inside a character are
-- never taken for the end of anything.
import ScriptMinifier.Proofs.Standing

namespace ScriptMinifier

open Character

/-! ## On the way -/

/-- The offset behind the first `read` characters of a text that starts at `start`. -/
def reach (start : Nat) (whole : Text) (read : Nat) : Nat := start + Text.byteSize (whole.take read)

@[simp]
theorem reach_zero (start : Nat) (whole : Text) : reach start whole 0 = start := by
  simp [reach]

theorem reach_one {start : Nat} {c : Char} {text : Text} (hc : isAscii c = true) :
    reach start (c :: text) 1 = start + 1 := by
  simp [reach, utf8Size_of_isAscii hc]

theorem lt_reach {start n : Nat} {c : Char} {text : Text} (h : 0 < n) :
    start < reach start (c :: text) n := by
  obtain ⟨m, rfl⟩ := Nat.exists_eq_succ_of_ne_zero (Nat.ne_of_gt h)
  have hc := c.utf8Size_pos
  rw [reach, List.take_succ_cons, Text.byteSize_cons]
  omega

/-- A scan of the text at `start` has come behind `read` of its characters, to `ahead`. -/
structure Along (source : Text) (start : Nat) (whole : Text) (read : Nat) (ahead : Text) :
    Prop where
  stands : Stands source start whole
  drop_eq : whole.drop read = ahead

namespace Along

variable {source whole ahead : Text} {start read : Nat} {c : Char}

theorem refl (h : Stands source start whole) : Along source start whole 0 whole := ⟨h, rfl⟩

theorem here (h : Along source start whole read ahead) :
    Stands source (reach start whole read) ahead := by
  obtain ⟨hstands, rfl⟩ := h
  exact (hstands.parts read).append

theorem drop (h : Along source start whole read ahead) (n : Nat) :
    Along source start whole (read + n) (ahead.drop n) := by
  refine ⟨h.stands, ?_⟩
  rw [← h.drop_eq, List.drop_drop]

theorem tail (h : Along source start whole read (c :: ahead)) :
    Along source start whole (read + 1) ahead :=
  h.drop 1

theorem reach_add (h : Along source start whole read ahead) (n : Nat) :
    reach start whole (read + n) = reach (reach start whole read) ahead n := by
  rw [reach, reach, reach, List.take_add, Text.byteSize_append, h.drop_eq, Nat.add_assoc]

theorem reach_succ (h : Along source start whole read (c :: ahead)) :
    reach start whole (read + 1) = reach start whole read + c.utf8Size := by
  rw [h.reach_add, reach]
  simp

theorem reach_ascii (h : Along source start whole read (c :: ahead)) (hc : isAscii c = true) :
    reach start whole (read + 1) = reach start whole read + 1 := by
  rw [h.reach_succ, utf8Size_of_isAscii hc]

theorem first (h : Stands source start (c :: ahead)) : Along source start (c :: ahead) 1 ahead :=
  (refl h).tail

theorem reach_takeWhile (h : Along source start whole read ahead) (accepts : Char → Bool) :
    reach start whole (read + (ahead.takeWhile accepts).length) =
      reach start whole read + Text.byteSize (ahead.takeWhile accepts) := by
  rw [h.reach_add, reach, Lexeme.take_takeWhile_length]

/-- A walk that steps over every byte outside ASCII comes from the first byte of a character to
the next character. -/
theorem pass {α : Type} {walk : Nat → α} (h : Along source start whole read (c :: ahead))
    (hwalk : ∀ i d, Code.peek source.bytes i = some d → isAscii d = false →
      walk i = walk (i + 1)) :
    walk (reach start whole read + 1) = walk (reach start whole (read + 1)) := by
  rw [h.reach_succ]
  exact h.here.pass hwalk

end Along

/-! ## The halt of a scan -/

/-- Where a scan of the text at `start` halts among the bytes of the source. -/
def Scan.halt (scan : Scan) (source : Text) (start : Nat) (whole : Text) : Code.Halt :=
  { next := reach start whole scan.length
    error := scan.fault.map fun fault =>
      { kind := fault.kind, position := Position.resolve source (reach start whole fault.start) }
    crossed := scan.crossesLine }

/-- A scan of a part halts where it does as a scan by itself. -/
theorem Along.halt_within {source whole ahead : Text} {start read : Nat}
    (h : Along source start whole read ahead) (scan : Scan) :
    (scan.within read).halt source start whole =
      scan.halt source (reach start whole read) ahead := by
  rw [Scan.halt, Scan.halt, Scan.length_within, h.reach_add]
  cases hfault : scan.fault with
  | none => simp [Scan.within, hfault]
  | some fault => simp [Scan.within, hfault, h.reach_add]

theorem Stands.fail? {source whole : Text} {start : Nat} (h : Stands source start whole)
    (kind : LexError.Kind) (n : Nat) (crossed : Bool) :
    Code.fail? source.bytes kind start (reach start whole n) crossed =
      some ({ Scan.fail kind n with crossesLine := crossed }.halt source start whole) := by
  simp [Code.fail?, h.position?, Scan.halt, Scan.fail]

namespace Lexeme

variable {source whole ahead : Text} {start read : Nat}

theorem eq_of_isLineTerminator {c : Char} (h : isLineTerminator c = true) :
    c = '\n' ∨ c = '\r' := by
  simpa [isLineTerminator] using h

/-- A character that is not `e`, neither before the end nor before another character. -/
theorem beq_eq_false_of_cases {c e : Char} {text : Text} (hend : c = e → text = [] → False)
    (hmore : ∀ d rest, c = e → text = d :: rest → False) : (c == e) = false := by
  apply beq_false_of_ne
  rintro rfl
  cases text with
  | nil => exact hend rfl rfl
  | cons d rest => exact hmore d rest rfl rfl

/-! ## Runs -/

theorem runFrom?_add (accepts : Char → Bool) {offset : Nat} (h : Stands source offset ahead)
    (skipped count : Nat) (hcount : skipped + count ≤ Text.byteSize ahead) :
    Code.runFrom? source.bytes accepts (offset + skipped) (Text.byteSize ahead - skipped) count =
      some (count + ((ahead.byteChars.drop (skipped + count)).takeWhile accepts).length) := by
  rw [Code.runFrom?]
  by_cases hlt : skipped + count < Text.byteSize ahead
  · have hlength : skipped + count < ahead.byteChars.length := by rwa [Text.length_byteChars]
    rw [if_pos (by omega), Nat.add_assoc, h.peek_add, List.getElem?_eq_getElem hlength,
      List.drop_eq_getElem_cons hlength, List.takeWhile_cons]
    simp only [Option.bind_eq_bind, Option.bind_some]
    cases accepts (ahead.byteChars[skipped + count]) with
    | true =>
      rw [if_pos rfl, if_pos rfl, runFrom?_add accepts h skipped (count + 1) hlt, List.length_cons,
        Nat.add_assoc skipped]
      congr 1
      omega
    | false => simp
  · have hnone : ahead.byteChars.drop (skipped + count) = [] :=
      List.drop_eq_nil_of_le (by rw [Text.length_byteChars]; omega)
    rw [if_neg (by omega), hnone]
    simp
termination_by Text.byteSize ahead - count

/-- A run that begins so many bytes ahead. -/
theorem run?_add (accepts : Char → Bool) {offset : Nat} (h : Stands source offset ahead)
    (skipped : Nat) (hskipped : skipped ≤ Text.byteSize ahead) :
    Code.run? source.bytes accepts (offset + skipped) =
      some ((ahead.byteChars.drop skipped).takeWhile accepts).length := by
  have hleft : Code.left? source.bytes (offset + skipped) =
      some (Text.byteSize ahead - skipped) := by
    have := h.add_byteSize
    rw [Code.left?, if_pos (by omega)]
    congr 1
    omega
  rw [Code.run?, hleft]
  exact (runFrom?_add accepts h skipped 0 hskipped).trans (by rw [Nat.zero_add, Nat.add_zero])

/-- A run of bytes ends with a run of characters. -/
theorem run?_bytes {accepts : Char → Bool} (ha : ∀ d c, Alike d c → accepts d = accepts c)
    {offset : Nat} (h : Stands source offset ahead) :
    Code.run? source.bytes accepts offset = some (Text.byteSize (ahead.takeWhile accepts)) := by
  have hrun := run?_add accepts h 0 (Nat.zero_le _)
  rwa [Nat.add_zero, List.drop_zero, Text.takeWhile_byteChars ha, Text.length_byteChars] at hrun

/-! ## Blanks and comments -/

theorem blanks?_bytes (h : Stands source start whole) :
    Code.blanks? source.bytes start = some ((blanks whole).halt source start whole) := by
  have hsplit : Stands source start (whole.takeWhile isBlank ++ whole.dropWhile isBlank) := by
    rwa [List.takeWhile_append_dropWhile]
  rw [Code.blanks?, run?_bytes (fun d c hd => hd.accepts asciiOnly_isBlank) h]
  simp only [Option.bind_eq_bind, Option.bind_some, hsplit.slice?,
    Text.any_bytes asciiOnly_isLineTerminator]
  simp [Scan.halt, blanks, reach, take_takeWhile_length]

theorem lineComment?_bytes (h : Stands source start whole) :
    Code.lineComment? source.bytes start =
      some ((lineComment whole).halt source start whole) := by
  rw [Code.lineComment?, h.rest?]
  simp only [Option.bind_eq_bind, Option.bind_some, Text.length_byteChars,
    Text.takeWhile_byteChars fun d c hd => hd.rejects asciiOnly_isLineTerminator]
  simp [Scan.halt, lineComment, reach, take_takeWhile_length]

theorem blockComment?_bytes (h : Stands source start ('/' :: '*' :: ahead)) :
    Code.blockComment? source.bytes start =
      some ((blockComment ('/' :: '*' :: ahead)).halt source start ('/' :: '*' :: ahead)) := by
  have hinside : Stands source (start + 2) ahead := h.tail.tail
  rw [Code.blockComment?, h.step? (Nat.le_trans (by simp) (Text.length_le_byteSize _))]
  simp only [Option.bind_eq_bind, Option.bind_some, hinside.rest?, commentEnd?_byteChars 2 ahead 0,
    blockComment, List.drop_succ_cons, List.drop_zero]
  cases hend : commentEnd? 2 ahead with
  | none => exact h.fail? .openComment 2 false
  | some n =>
    obtain ⟨m, rfl⟩ : ∃ m, n = m + 2 := ⟨n - 2, by have := lt_commentEnd? hend; omega⟩
    have hsplit : Stands source start (('/' :: '*' :: ahead.take m) ++ ahead.drop m) := by
      simpa using h
    have hstop : start + 2 + (0 + Text.byteSize (ahead.take (m + 2 - 2))) =
        start + Text.byteSize ('/' :: '*' :: ahead.take m) := by
      rw [Text.byteSize_cons, Text.byteSize_cons, utf8Size_of_isAscii (c := '/') rfl,
        utf8Size_of_isAscii (c := '*') rfl, Nat.add_sub_cancel]
      omega
    simp only [Option.map_some, hstop, hsplit.slice?, Option.bind_some,
      Text.any_bytes asciiOnly_isLineTerminator]
    rfl

/-! ## Words and punctuators -/

theorem any_bytes_beq (words : List Text) (text : Text) :
    (words.any fun word => word.bytes == text.bytes) = words.contains text := by
  rw [Bool.eq_iff_iff]
  simp [Text.bytes_inj]

theorem word?_bytes {c : Char} (h : Stands source start (c :: ahead)) :
    Code.word? source.bytes start = some (wordKind ((word (c :: ahead)).lexeme (c :: ahead)),
      (word (c :: ahead)).halt source start (c :: ahead)) := by
  obtain ⟨tail, rest, hahead, htail⟩ : ∃ tail rest, tail ++ rest = ahead ∧
      ahead.takeWhile (fun c => !isWordBreak c) = tail :=
    ⟨_, _, List.takeWhile_append_dropWhile, rfl⟩
  have hlexeme : (word (c :: ahead)).lexeme (c :: ahead) = c :: tail := by
    rw [Scan.lexeme, word, List.drop_one, List.tail_cons, Nat.add_comm 1, List.take_succ_cons,
      take_takeWhile_length, htail]
  -- The run begins at the second byte of the first character.
  have hrun : Code.run? source.bytes (fun c => !isWordBreak c) (start + 1) =
      some (c.utf8Size - 1 + Text.byteSize tail) := by
    obtain ⟨d, inner, hchars, _, hsize, hinner⟩ := Text.exists_byteChars_cons c
    have hall : ∀ e ∈ inner, (!isWordBreak e) = true := by
      intro e he
      rw [asciiOnly_isWordBreak.eq_false (hinner e he).1]
      rfl
    rw [run?_add _ h 1 (by simp; omega), hchars, List.drop_succ_cons, List.drop_zero,
      List.takeWhile_append_of_pos hall,
      Text.takeWhile_byteChars fun d c hd => hd.rejects asciiOnly_isWordBreak, htail,
      List.length_append, Text.length_byteChars]
    congr 1
    omega
  have hstop : start + 1 + (c.utf8Size - 1 + Text.byteSize tail) =
      start + Text.byteSize (c :: tail) := by
    have := c.utf8Size_pos
    rw [Text.byteSize_cons]
    omega
  have hsplit : Stands source start ((c :: tail) ++ rest) := by rwa [List.cons_append, hahead]
  rw [Code.word?, h.step?_one]
  simp only [Option.bind_eq_bind, Option.bind_some, hrun, hstop, hsplit.text?, any_bytes_beq,
    wordKind]
  rw [← hlexeme]
  rfl

theorem longestPunctuator?_eq_some {text mark : Text} (h : longestPunctuator? text = some mark) :
    mark ∈ punctuators ∧ ∃ rest, text = mark ++ rest := by
  refine ⟨by simpa using List.find?_some h, ?_⟩
  obtain ⟨n, _, rfl⟩ := List.mem_map.1 (List.mem_of_find?_eq_some h)
  exact ⟨text.drop n, (List.take_append_drop n text).symm⟩

theorem punctuator?_bytes {c : Char} (h : Stands source start (c :: ahead)) :
    Code.punctuator? source.bytes start = some ((punctuatorOrWord (c :: ahead)).1,
      (punctuatorOrWord (c :: ahead)).2.halt source start (c :: ahead)) := by
  rw [Code.punctuator?, h.rest?]
  simp only [Option.bind_eq_bind, Option.bind_some, longestPunctuator?_byteChars, punctuatorOrWord]
  cases hmark : longestPunctuator? (c :: ahead) with
  | none => exact word?_bytes h
  | some mark =>
    obtain ⟨hmem, rest, htext⟩ := longestPunctuator?_eq_some hmark
    have hascii := isAscii_of_mem_punctuators hmem
    rw [htext] at h ⊢
    have hreach : reach start (mark ++ rest) mark.length = start + mark.length := by
      rw [reach, List.take_left, Text.byteSize_of_isAscii hascii]
    by_cases hchain : mark = ['?', '.']
    · subst hchain
      have hpeek : (Code.peek source.bytes (start + 2)).any isDigit = rest.head?.any isDigit :=
        h.tail.tail.peek_any asciiOnly_isDigit
      simp only [punctuatorLength, hpeek, BEq.rfl, Bool.true_and, List.cons_append, List.nil_append,
        List.drop_succ_cons, List.drop_zero]
      cases rest.head?.any isDigit <;> rfl
    · simp [punctuatorLength, hchain, Scan.halt, hreach]

/-! ## Numbers -/

section Digits

variable {accepts : Char → Bool} (ha : AsciiOnly accepts) (hseparator : accepts '_' = false)
include ha

theorem byteSize_take_digitRun (read : Nat) (text : Text) :
    Text.byteSize (text.take (digitRun accepts read text - read)) =
      digitRun accepts read text - read := by
  fun_induction digitRun accepts read text with
  | case1 read => simp
  | case2 read => simp
  | case3 read c text hc ih =>
    have hle := le_digitRun accepts (read + 2) text
    have hascii := ha c (Bool.and_eq_true_iff.1 hc).2
    rw [show digitRun accepts (read + 2) text - read =
        digitRun accepts (read + 2) text - (read + 2) + 1 + 1 by omega, List.take_succ_cons,
      List.take_succ_cons, Text.byteSize_cons, Text.byteSize_cons, ih, utf8Size_of_isAscii hascii,
      utf8Size_of_isAscii (c := '_') rfl]
    omega
  | case4 read c text hc => simp
  | case5 read c text _ _ hc ih =>
    have hle := le_digitRun accepts (read + 1) text
    rw [show digitRun accepts (read + 1) text - read =
        digitRun accepts (read + 1) text - (read + 1) + 1 by omega, List.take_succ_cons,
      Text.byteSize_cons, ih, utf8Size_of_isAscii (ha c hc)]
    omega
  | case6 read c text _ _ hc => simp

include hseparator

theorem digits?_add {offset : Nat} (h : Stands source (offset + read) ahead) :
    Code.digits? source.bytes accepts offset read = some (digitRun accepts read ahead) := by
  fun_induction digitRun accepts read ahead with
  | case1 read => rw [Code.digits?, h.peek_nil]
  | case2 read =>
    have hnext : Code.peek source.bytes (offset + (read + 1)) = none := h.tail.peek_nil
    rw [Code.digits?, h.peek_ascii rfl]
    simp [hseparator, hnext]
  | case3 read c text hc ih =>
    obtain ⟨hread, haccepted⟩ := Bool.and_eq_true_iff.1 hc
    have hnext : Code.peek source.bytes (offset + (read + 1)) = some c :=
      h.tail.peek_ascii (ha c haccepted)
    have hlater : Stands source (offset + (read + 2)) text := by
      have := h.tail.tail
      rwa [utf8Size_of_isAscii (ha c haccepted)] at this
    rw [Code.digits?, h.peek_ascii rfl, ← ih hlater]
    simp [hseparator, hnext, hread, haccepted]
  | case4 read c text hc =>
    have hnext : (Code.peek source.bytes (offset + (read + 1))).any accepts = accepts c :=
      h.tail.peek_any ha
    rw [Code.digits?, h.peek_ascii rfl]
    simp only [hseparator, hnext, BEq.rfl, Bool.true_and, Bool.false_eq_true, if_false]
    exact if_neg hc
  | case5 read c text _ _ hc ih =>
    have hlater : Stands source (offset + (read + 1)) text := by
      have := h.tail
      rwa [utf8Size_of_isAscii (ha c hc)] at this
    rw [Code.digits?, h.peek_ascii (ha c hc), ← ih hlater]
    simp [hc]
  | case6 read c text hne hne' hc =>
    obtain ⟨d, hpeek, hd⟩ := h.peek_cons
    have hother : (d == '_') = false := by
      rw [hd.beq rfl, beq_eq_false_of_cases hne hne']
    rw [Code.digits?, hpeek]
    simp [hd.accepts ha, hc, hother]

theorem digits?_bytes (h : Along source start whole read ahead) :
    Code.digits? source.bytes accepts (reach start whole read) 0 = some (digits accepts ahead) ∧
      reach start whole (read + digits accepts ahead) =
        reach start whole read + digits accepts ahead := by
  have hsize := byteSize_take_digitRun ha 0 ahead
  rw [Nat.sub_zero] at hsize
  refine ⟨digits?_add ha hseparator h.here, ?_⟩
  rw [h.reach_add, reach, digits, hsize]

end Digits

theorem dots?_add (offset read : Nat) (h : Stands source (offset + read) ahead) :
    Code.dots? source.bytes offset read = some (read + (ahead.takeWhile (· == '.')).length) := by
  induction ahead generalizing read with
  | nil =>
    rw [Code.dots?, h.peek_nil]
    rfl
  | cons c ahead ih =>
    by_cases hc : c = '.'
    · subst hc
      have hlater : Stands source (offset + (read + 1)) ahead := h.tail
      rw [Code.dots?, dif_pos (h.peek_ascii rfl), ih (read + 1) hlater, List.takeWhile_cons,
        if_pos BEq.rfl, List.length_cons]
      congr 1
      omega
    · have hother : Code.peek source.bytes (offset + read) ≠ some '.' := by
        intro hdot
        exact hc (by simpa [hdot] using h.peek_beq (c := '.') rfl)
      rw [Code.dots?, dif_neg hother]
      simp [hc]

theorem optional_bytes {c : Char} (hc : isAscii c = true) {offset : Nat}
    (h : Stands source offset ahead) :
    Code.optional source.bytes c offset = optional (· == c) ahead := by
  rw [Code.optional, h.peek_beq hc]
  cases ahead <;> rfl

theorem reach_optional {accepts : Char → Bool} (ha : AsciiOnly accepts)
    (h : Along source start whole read ahead) :
    reach start whole (read + optional accepts ahead) =
      reach start whole read + optional accepts ahead := by
  cases ahead with
  | nil => rfl
  | cons c ahead =>
    cases hc : accepts c with
    | true => simp [optional, hc, h.reach_ascii (ha c hc)]
    | false => simp [optional, hc]

theorem sign?_bytes (h : Along source start whole read ahead) :
    Code.sign? source.bytes (reach start whole read) =
      some (reach start whole (read + optional isSign ahead)) := by
  rw [Code.sign?, h.here.peek_any asciiOnly_isSign, reach_optional asciiOnly_isSign h]
  cases ahead with
  | nil => rfl
  | cons c ahead =>
    cases hc : isSign c with
    | true => simp [optional, hc, h.here.step?_one]
    | false => simp [optional, hc]

theorem exponent?_bytes (h : Along source start whole read ahead) :
    Code.exponent? source.bytes start (reach start whole read) =
      some ((exponent read ahead).halt source start whole) := by
  rw [Code.exponent?, h.here.peek_any asciiOnly_isExponentMark]
  cases ahead with
  | nil => rfl
  | cons c text =>
    by_cases hc : isExponentMark c = true
    · have hascii := asciiOnly_isExponentMark c hc
      obtain ⟨hcount, hreach⟩ :=
        digits?_bytes asciiOnly_isDigit rfl (h.tail.drop (optional isSign text))
      simp only [exponent, hc, List.head?_cons, Option.any_some, if_true, h.here.step?_one,
        ← h.reach_ascii hascii, sign?_bytes h.tail, hcount, Option.bind_eq_bind, Option.bind_some]
      split
      · exact h.stands.fail? ..
      · simp [Scan.halt, hreach]
    · simp [exponent, hc, Scan.halt]

theorem decimal?_bytes (h : Stands source start whole) :
    Code.decimal? source.bytes start = some ((decimal whole).halt source start whole) := by
  obtain ⟨hwhole, hreach⟩ := digits?_bytes asciiOnly_isDigit rfl (Along.refl h)
  have halong := (Along.refl h).drop (digits isDigit whole)
  rw [reach_zero] at hwhole hreach
  rw [Nat.zero_add] at hreach halong
  have hdots : Code.dots? source.bytes (reach start whole (digits isDigit whole)) 0 =
      some ((whole.drop (digits isDigit whole)).takeWhile (· == '.')).length := by
    rw [dots?_add (reach start whole (digits isDigit whole)) 0 halong.here, Nat.zero_add]
  simp only [Code.decimal?, decimal, hwhole, ← hreach, hdots, Option.bind_eq_bind,
    Option.bind_some]
  generalize digits isDigit whole = count at *
  generalize hrest : whole.drop count = rest at *
  have hdot : 0 < (rest.takeWhile (· == '.')).length → ∃ later, rest = '.' :: later := by
    intro hpos
    cases rest with
    | nil => simp at hpos
    | cons c later =>
      rw [List.takeWhile_cons] at hpos
      split at hpos
      · next hc => exact ⟨later, by rw [beq_iff_eq.1 hc]⟩
      · simp at hpos
  generalize (rest.takeWhile (· == '.')).length = dots at *
  match dots with
  | 0 =>
    rw [optional_bytes rfl halong.here, ← reach_optional (asciiOnly_eq rfl) halong]
    exact exponent?_bytes (halong.drop _)
  | 1 =>
    obtain ⟨later, rfl⟩ := hdot (by decide)
    obtain ⟨hfraction, hpoint⟩ := digits?_bytes asciiOnly_isDigit rfl halong.tail
    simp only [halong.here.step?_one, ← halong.reach_ascii rfl, hfraction, ← hpoint,
      Option.bind_some, Nat.add_comm 1, List.drop_succ_cons, List.drop_zero]
    exact exponent?_bytes (halong.tail.drop _)
  | 2 =>
    obtain ⟨later, rfl⟩ := hdot (by decide)
    rw [halong.here.step?_one, ← halong.reach_ascii rfl]
    rfl
  | n + 3 => exact h.fail? ..

theorem radix?_bytes {accepts letters : Char → Bool} (ha : AsciiOnly accepts)
    (hseparator : accepts '_' = false) (hletters : AsciiOnly letters) {c : Char}
    (h : Stands source start (c :: ahead)) (hmark : (c == '0' && ahead.head?.any letters) = true) :
    Code.radix? source.bytes accepts start =
      some ((radix accepts (c :: ahead)).halt source start (c :: ahead)) := by
  obtain ⟨d, rest, rfl, hc, hd⟩ :
      ∃ d rest, ahead = d :: rest ∧ isAscii c = true ∧ isAscii d = true := by
    obtain ⟨hzero, hletter⟩ := Bool.and_eq_true_iff.1 hmark
    cases ahead with
    | nil => cases hletter
    | cons d rest => exact ⟨d, rest, rfl, asciiOnly_eq rfl c hzero, hletters d hletter⟩
  have halong : Along source start (c :: d :: rest) 2 rest := (Along.first h).tail
  have htwo : reach start (c :: d :: rest) 2 = start + 2 := by
    rw [(Along.first h).reach_ascii hd, reach_one hc]
  obtain ⟨hcount, hreach⟩ := digits?_bytes ha hseparator halong
  rw [htwo] at hcount hreach
  rw [Code.radix?, h.step? (Nat.le_trans (by simp) (Text.length_le_byteSize _))]
  simp only [Option.bind_eq_bind, Option.bind_some, hcount, radix, List.drop_succ_cons,
    List.drop_zero]
  split
  · rw [← htwo]
    exact h.fail? ..
  · have hsuffix := halong.drop (digits accepts rest)
    rw [← hreach, optional_bytes rfl hsuffix.here, ← reach_optional (asciiOnly_eq rfl) hsuffix,
      Nat.add_comm 2, List.drop_succ_cons]
    rfl

end Lexeme

end ScriptMinifier
