-- Standing in front of a character. Where an offset into the bytes of a script has whole
-- characters before it and behind it, every checked access gives what is expected there: the
-- steps are in range, the texts are cut between characters, and the place of the offset is found.
import Mathlib.Data.List.Induction
import ScriptMinifier.Proofs.ByteLexer

namespace ScriptMinifier

open Character

/-! ## A byte that is there -/

namespace Code

variable {code : Code} {offset : Nat} {d : Char}

theorem step?_of_peek (h : code.peek offset = some d) : code.step? offset 1 = some (offset + 1) :=
  if_pos (lt_length_of_peek h)

theorem rest?_of_peek (h : code.peek offset = some d) :
    ∃ rest, code.rest? offset = some (d :: rest) := by
  have hlt := lt_length_of_peek h
  refine ⟨(code.drop (offset + 1)).map charOfByte, ?_⟩
  rw [peek, List.getElem?_eq_getElem hlt, Option.map_some, Option.some.injEq] at h
  rw [rest?, if_pos (Nat.le_of_lt hlt), List.drop_eq_getElem_cons hlt, List.map_cons, h]

end Code

/-! ## Bytes ahead -/

/-- The offset lies between characters of the source, in front of `ahead`. -/
def Stands (source : Text) (offset : Nat) (ahead : Text) : Prop :=
  ∃ behind, source = behind ++ ahead ∧ offset = Text.byteSize behind

namespace Stands

variable {source ahead : Text} {offset : Nat}

theorem start (source : Text) : Stands source 0 source := ⟨[], rfl, rfl⟩

/-- The offset behind some characters stands in front of the others. -/
theorem append {part rest : Text} (h : Stands source offset (part ++ rest)) :
    Stands source (offset + Text.byteSize part) rest := by
  obtain ⟨behind, hsource, rfl⟩ := h
  exact ⟨behind ++ part, by simp [hsource], by simp⟩

theorem parts (h : Stands source offset ahead) (n : Nat) :
    Stands source offset (ahead.take n ++ ahead.drop n) := by
  rwa [List.take_append_drop]

theorem tail {c : Char} (h : Stands source offset (c :: ahead)) :
    Stands source (offset + c.utf8Size) ahead := by
  have hparts : Stands source offset ([c] ++ ahead) := h
  simpa using hparts.append

theorem add_byteSize (h : Stands source offset ahead) :
    offset + Text.byteSize ahead = source.bytes.length := by
  obtain ⟨behind, rfl, rfl⟩ := h
  simp

theorem offset_le (h : Stands source offset ahead) : offset ≤ source.bytes.length := by
  rw [← h.add_byteSize]
  exact Nat.le_add_right _ _

theorem peek_add (h : Stands source offset ahead) (i : Nat) :
    Code.peek source.bytes (offset + i) = ahead.byteChars[i]? := by
  obtain ⟨behind, rfl, rfl⟩ := h
  rw [Code.peek, Text.bytes_append, ← Text.length_bytes,
    List.getElem?_append_right (Nat.le_add_right _ _), Nat.add_sub_cancel_left, Text.byteChars,
    List.getElem?_map]

theorem peek_nil (h : Stands source offset []) : Code.peek source.bytes offset = none := by
  simpa using h.peek_add 0

/-- The next byte looks like the next character. -/
theorem peek_cons {c : Char} (h : Stands source offset (c :: ahead)) :
    ∃ d, Code.peek source.bytes offset = some d ∧ Alike d c := by
  obtain ⟨d, inner, hchars, hd, _, _⟩ := Text.exists_byteChars_cons c
  refine ⟨d, ?_, hd⟩
  simpa [hchars] using h.peek_add 0

theorem peek_ascii {c : Char} (h : Stands source offset (c :: ahead)) (hc : isAscii c = true) :
    Code.peek source.bytes offset = some c := by
  obtain ⟨d, hpeek, hd⟩ := h.peek_cons
  rw [hpeek, hd.eq_of_isAscii hc]

/-- A byte of ASCII is a character of the text. -/
theorem of_peek {c : Char} (hc : isAscii c = true)
    (h : Code.peek source.bytes offset = some c) : ∃ ahead, Stands source offset (c :: ahead) := by
  induction source generalizing offset with
  | nil => cases h
  | cons d text ih =>
    rw [Code.peek, Text.bytes_cons] at h
    rcases Nat.lt_or_ge offset d.utf8Size with hlt | hge
    · rw [List.getElem?_append_left (by simpa using hlt)] at h
      obtain ⟨b, hb, rfl⟩ := Option.map_eq_some_iff.1 h
      have hd : d = charOfByte b := by
        rcases alike_of_mem_utf8EncodeChar (List.mem_of_getElem? hb) with hd | ⟨hwide, _⟩
        · exact hd.symm
        · rw [hc] at hwide
          cases hwide
      subst hd
      rw [utf8Size_of_isAscii hc] at hlt
      obtain rfl : offset = 0 := by omega
      exact ⟨text, .start _⟩
    · obtain ⟨k, rfl⟩ := Nat.exists_eq_add_of_le hge
      rw [List.getElem?_append_right (by simp), String.length_utf8EncodeChar,
        Nat.add_sub_cancel_left] at h
      obtain ⟨ahead, behind, hsource, rfl⟩ := ih h
      exact ⟨ahead, d :: behind, by rw [hsource, List.cons_append], rfl⟩

theorem dropBytes_eq (h : Stands source offset ahead) :
    Text.dropBytes offset source = ahead := by
  obtain ⟨behind, rfl, rfl⟩ := h
  exact Text.dropBytes_byteSize_append behind ahead

theorem peek_any {accepts : Char → Bool} (ha : AsciiOnly accepts)
    (h : Stands source offset ahead) :
    (Code.peek source.bytes offset).any accepts = ahead.head?.any accepts := by
  cases ahead with
  | nil => rw [h.peek_nil, List.head?_nil]
  | cons c ahead =>
    obtain ⟨d, hpeek, hd⟩ := h.peek_cons
    rw [hpeek, List.head?_cons, Option.any_some, Option.any_some, hd.accepts ha]

theorem peek_beq {c : Char} (hc : isAscii c = true) (h : Stands source offset ahead) :
    (Code.peek source.bytes offset == some c) = (ahead.head? == some c) := by
  have hany : ∀ o : Option Char, (o == some c) = o.any (· == c) := by
    intro o
    cases o <;> rfl
  rw [hany, hany, h.peek_any (asciiOnly_eq hc)]

theorem peek_eq_some_iff {c : Char} (hc : isAscii c = true) (h : Stands source offset ahead) :
    Code.peek source.bytes offset = some c ↔ ahead.head? = some c := by
  rw [← beq_iff_eq, h.peek_beq hc, beq_iff_eq]

/-- A test of the next two bytes is a test of the next two characters, if the first of them has to
be of ASCII. -/
theorem peek_both {accepts : Char → Bool} {c d e : Char} (h : Stands source offset (c :: ahead))
    (hd : Alike d c) (he : isAscii e = true) (ha : AsciiOnly accepts) :
    (d == e && (Code.peek source.bytes (offset + 1)).any accepts) =
      (c == e && ahead.head?.any accepts) := by
  rw [hd.beq he]
  by_cases hc : c = e
  · subst hc
    have hnext := h.tail.peek_any ha
    rw [utf8Size_of_isAscii he] at hnext
    rw [hnext]
  · rw [beq_false_of_ne hc, Bool.false_and, Bool.false_and]

/-- A walk that steps over every byte outside ASCII comes from the first byte of a character to
the next character. -/
theorem pass {α : Type} {walk : Nat → α} {c : Char} (h : Stands source offset (c :: ahead))
    (hwalk : ∀ i d, Code.peek source.bytes i = some d → isAscii d = false →
      walk i = walk (i + 1)) :
    walk (offset + 1) = walk (offset + c.utf8Size) := by
  obtain ⟨d, inner, hchars, _, hsize, hinner⟩ := Text.exists_byteChars_cons c
  have hpeek : ∀ i e, inner[i]? = some e →
      Code.peek source.bytes (offset + 1 + i) = some e := by
    intro i e he
    have hlt : i < inner.length := by
      rcases Nat.lt_or_ge i inner.length with hlt | hge
      · exact hlt
      · rw [List.getElem?_eq_none hge] at he
        cases he
    rw [Nat.add_assoc, h.peek_add, hchars, Nat.add_comm 1, List.getElem?_cons_succ,
      List.getElem?_append_left hlt, he]
  rw [← hsize, Nat.add_comm inner.length, ← Nat.add_assoc]
  generalize offset + 1 = start at hpeek
  clear hchars hsize
  induction inner generalizing start with
  | nil => rfl
  | cons e inner ih =>
    obtain ⟨he, hinner⟩ := List.forall_mem_cons.1 hinner
    rw [hwalk start e (hpeek 0 e rfl) he.1, ih hinner (start + 1), List.length_cons]
    · congr 1
      omega
    · intro i f hf
      rw [Nat.add_assoc, Nat.add_comm 1]
      exact hpeek (i + 1) f hf

/-! ## Steps and cuts -/

theorem step? (h : Stands source offset ahead) {count : Nat} (hc : count ≤ Text.byteSize ahead) :
    Code.step? source.bytes offset count = some (offset + count) := by
  have := h.add_byteSize
  exact if_pos (by omega)

theorem step?_one {c : Char} (h : Stands source offset (c :: ahead)) :
    Code.step? source.bytes offset 1 = some (offset + 1) := by
  obtain ⟨d, hpeek, _⟩ := h.peek_cons
  exact Code.step?_of_peek hpeek

theorem rest? (h : Stands source offset ahead) :
    Code.rest? source.bytes offset = some ahead.byteChars := by
  obtain ⟨behind, rfl, rfl⟩ := h
  have hdrop : (behind ++ ahead).bytes.drop (Text.byteSize behind) = ahead.bytes := by
    rw [Text.bytes_append, ← Text.length_bytes, List.drop_left]
  rw [Code.rest?, if_pos (by simp), hdrop]
  rfl

theorem slice? {part rest : Text} (h : Stands source offset (part ++ rest)) :
    Code.slice? source.bytes offset (offset + Text.byteSize part) = some part.bytes := by
  obtain ⟨behind, rfl, rfl⟩ := h
  rw [Code.slice?, if_pos (by simp)]
  congr 1
  rw [← List.append_assoc, Text.bytes_append, ← Text.byteSize_append,
    ← Text.length_bytes (behind ++ part), List.take_left, Text.bytes_append,
    ← Text.length_bytes behind, List.drop_left]

theorem isBoundary (h : Stands source offset ahead) :
    Code.isBoundary source.bytes offset = true := by
  obtain ⟨behind, rfl, rfl⟩ := h
  have hget : (behind ++ ahead).bytes[Text.byteSize behind]? = ahead.bytes[0]? := by
    rw [Text.bytes_append, ← Text.length_bytes, List.getElem?_append_right (Nat.le_refl _),
      Nat.sub_self]
  rw [Code.isBoundary, hget]
  cases ahead with
  | nil => simp
  | cons c ahead =>
    have hpos : 0 < (String.utf8EncodeChar c).length := by simp [c.utf8Size_pos]
    rw [Text.bytes_cons, List.getElem?_append_left hpos, List.getElem?_eq_getElem hpos]
    simp

theorem text? {part rest : Text} (h : Stands source offset (part ++ rest)) :
    Code.text? source.bytes offset (offset + Text.byteSize part) = some part.bytes := by
  rw [Code.text?, h.isBoundary, h.append.isBoundary]
  exact h.slice?

end Stands

/-! ## Places -/

namespace ByteCursor

/-- Bytes that are no line terminators stay on one line. -/
theorem foldl_step_of_line {bytes : Code}
    (h : ∀ b ∈ bytes, isLineTerminator (charOfByte b) = false) (hne : bytes ≠ [])
    (cursor : ByteCursor) :
    bytes.foldl step cursor =
      { cursor with offset := cursor.offset + bytes.length, afterReturn := false } := by
  induction bytes generalizing cursor with
  | nil => exact absurd rfl hne
  | cons b bytes ih =>
    obtain ⟨hb, hbytes⟩ := List.forall_mem_cons.1 h
    have hstep : cursor.step b =
        { cursor with offset := cursor.offset + 1, afterReturn := false } := by
      obtain ⟨hn, hr⟩ := Bool.or_eq_false_iff.1 hb
      simp [step, hb, hn, hr]
    rw [List.foldl_cons, hstep]
    cases bytes with
    | nil => rfl
    | cons d bytes =>
      rw [ih hbytes (by simp)]
      simp only [List.length_cons, Nat.add_assoc, Nat.add_comm 1]

/-- Behind `earlier` and `line`, where `line` is what stands on the current line. -/
def behind (earlier line : Text) : ByteCursor :=
  let cursor := Cursor.afterText (earlier ++ line)
  { line := cursor.line
    lineStart := Text.byteSize earlier
    offset := Text.byteSize (earlier ++ line)
    afterReturn := cursor.afterReturn }

theorem foldl_step_terminator (earlier line : Text) {c : Char} (h : isLineTerminator c = true) :
    (String.utf8EncodeChar c).foldl step (behind earlier line) =
      behind (earlier ++ line ++ [c]) [] := by
  have hascii := asciiOnly_isLineTerminator c h
  have hsize := utf8Size_of_isAscii hascii
  obtain ⟨b, hb, hc⟩ := utf8EncodeChar_of_isAscii hascii
  rw [hb, behind, behind, List.append_nil, Cursor.afterText_append_singleton]
  simp only [List.foldl_cons, List.foldl_nil, step, hc, Text.byteSize_append,
    Text.byteSize_cons, Text.byteSize_nil, hsize, Cursor.step, h]
  simp only [isLineTerminator, Bool.or_eq_true, beq_iff_eq] at h
  rcases h with rfl | rfl
  · cases (Cursor.afterText (earlier ++ line)).afterReturn <;> simp
  · simp

theorem foldl_step_character (earlier line : Text) {c : Char} (h : isLineTerminator c = false) :
    (String.utf8EncodeChar c).foldl step (behind earlier line) = behind earlier (line ++ [c]) := by
  have hbytes : ∀ b ∈ String.utf8EncodeChar c, isLineTerminator (charOfByte b) = false := by
    intro b hb
    rw [(alike_of_mem_utf8EncodeChar hb).accepts asciiOnly_isLineTerminator, h]
  obtain ⟨hn, hr⟩ := Bool.or_eq_false_iff.1 h
  rw [foldl_step_of_line hbytes String.utf8EncodeChar_ne_nil, behind, behind, ← List.append_assoc,
    Cursor.afterText_append_singleton]
  simp [Cursor.step, hn, hr, Nat.add_assoc]

/-- The walk over the bytes of a text comes to the place where the walk over its characters
does. -/
theorem foldl_step_bytes (text : Text) :
    ∃ earlier line, text = earlier ++ line ∧ text.bytes.foldl step {} = behind earlier line ∧
      (Cursor.afterText text).column = line.length := by
  induction text using List.reverseRecOn with
  | nil => exact ⟨[], [], rfl, rfl, rfl⟩
  | append_singleton text c ih =>
    obtain ⟨earlier, line, rfl, hfold, hcolumn⟩ := ih
    rw [Text.bytes_append, List.foldl_append, hfold, Text.bytes_cons, Text.bytes_nil,
      List.append_nil, Cursor.afterText_append_singleton]
    cases h : isLineTerminator c with
    | true =>
      refine ⟨earlier ++ line ++ [c], [], by simp, foldl_step_terminator _ _ h, ?_⟩
      simp only [isLineTerminator, Bool.or_eq_true, beq_iff_eq] at h
      rcases h with rfl | rfl <;> simp [Cursor.step]
    | false =>
      refine ⟨earlier, line ++ [c], by simp, foldl_step_character _ _ h, ?_⟩
      obtain ⟨hn, hr⟩ := Bool.or_eq_false_iff.1 h
      simp [Cursor.step, hn, hr, hcolumn]

end ByteCursor

/-- The place of an offset between characters is found. -/
theorem Stands.position? {source ahead : Text} {offset : Nat} (h : Stands source offset ahead) :
    Code.position? source.bytes offset = some (Position.resolve source offset) := by
  obtain ⟨before, rfl, rfl⟩ := h
  obtain ⟨earlier, line, rfl, hfold, hcolumn⟩ := ByteCursor.foldl_step_bytes before
  have hall := (Stands.start (earlier ++ line ++ ahead)).slice?
  have hstands : Stands (earlier ++ line ++ ahead) (Text.byteSize earlier) (line ++ ahead) :=
    ⟨earlier, by simp, rfl⟩
  have hline := hstands.text?
  rw [Nat.zero_add] at hall
  rw [← Text.byteSize_append] at hline
  simp only [Code.position?, hall, Option.bind_eq_bind, Option.bind_some, hfold,
    ByteCursor.behind, hline, Text.countP_bytes, Option.pure_def]
  rw [Position.resolve, Text.takeBytes_byteSize_append, hcolumn]

end ScriptMinifier
