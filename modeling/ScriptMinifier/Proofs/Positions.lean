-- Lines and columns. The place of an offset is found by a walk over the characters before it. Among
-- the bytes it is the number of lines that end before the offset, and the number of characters
-- since then. Places are in the order of their offsets, and only a line feed that belongs to the
-- carriage return before it has the same place on both of its sides.
import Mathlib.Data.Nat.Count
import Mathlib.Data.Nat.Find
import Mathlib.Data.Prod.Lex
import ScriptMinifier.Proofs.Margins
import ScriptMinifier.Proofs.Rereading

namespace ScriptMinifier

open Character

/-! ## Lines among the bytes -/

namespace Code

/-- The offset lies between a carriage return and a line feed, which end one line together. -/
def splitsPair (code : Code) (offset : Nat) : Bool :=
  offset != 0 && code.peek (offset - 1) == some '\r' && code.peek offset == some '\n'

/-- A line ends with the byte: with a carriage return, or with a line feed that has none before. -/
def endsLine (code : Code) (offset : Nat) : Bool :=
  code.peek offset == some '\r' || (code.peek offset == some '\n' && !code.splitsPair offset)

/-- The offset behind the last line terminator before the given one, or the start. -/
def lineStart (code : Code) (offset : Nat) : Nat :=
  Nat.findGreatest (fun start => (code.peek (start - 1)).any isLineTerminator = true) offset

theorem peek_isLineTerminator_iff (code : Code) (offset : Nat) :
    (code.peek offset).any isLineTerminator = true ↔
      code[offset]? = some 0x0a ∨ code[offset]? = some 0x0d := by
  rw [peek]
  cases code[offset]? with
  | none => simp
  | some b => simpa using isLineTerminator_charOfByte b

theorem endsLine_isLineTerminator {code : Code} {offset : Nat} (h : code.endsLine offset = true) :
    (code.peek offset).any isLineTerminator = true := by
  simp only [endsLine, Bool.or_eq_true, Bool.and_eq_true, beq_iff_eq] at h
  rcases h with h | ⟨h, _⟩ <;> rw [h] <;> rfl

end Code

/-! ## Boundaries -/

/-- An offset where no character is cut stands in front of a character or at the end. -/
theorem exists_stands_of_isBoundary {source : Text} {offset : Nat}
    (h : Code.isBoundary source.bytes offset = true) : ∃ ahead, Stands source offset ahead := by
  induction source generalizing offset with
  | nil =>
    obtain rfl : offset = 0 := by simpa [Code.isBoundary] using h
    exact ⟨[], .start _⟩
  | cons c text ih =>
    rcases Nat.lt_or_ge offset c.utf8Size with hlt | hge
    · have hinner : offset < (String.utf8EncodeChar c).length := by simpa using hlt
      rw [Code.isBoundary, Text.bytes_cons, List.getElem?_append_left hinner,
        List.getElem?_eq_getElem hinner] at h
      obtain rfl : offset = 0 := by simpa using h
      exact ⟨c :: text, .start _⟩
    · obtain ⟨k, rfl⟩ := Nat.exists_eq_add_of_le hge
      have hrest : Code.isBoundary (Text.bytes text) k = true := by
        have hsub : c.utf8Size + k - (String.utf8EncodeChar c).length = k := by simp
        rw [Code.isBoundary, Text.bytes_cons, List.getElem?_append_right (by simp), hsub] at h
        rw [Code.isBoundary]
        cases hbyte : (Text.bytes text)[k]? with
        | none => simpa [hbyte] using h
        | some b => simpa [hbyte] using h
      obtain ⟨ahead, behind, rfl, rfl⟩ := ih hrest
      exact ⟨ahead, c :: behind, rfl, rfl⟩

/-- The byte before an offset is a character of ASCII if and only if the last character is. -/
theorem peek_pred_iff (behind ahead : Text) {d : Char} (hd : isAscii d = true) :
    Text.byteSize behind ≠ 0 ∧
      Code.peek (behind ++ ahead).bytes (Text.byteSize behind - 1) = some d ↔
    behind.getLast? = some d := by
  constructor
  · rintro ⟨hne, hpeek⟩
    obtain ⟨after, earlier, hsource, hsize⟩ := Stands.of_peek hd hpeek
    have hcut : behind ++ ahead = (earlier ++ [d]) ++ after := by simp [hsource]
    have hbehind := (Text.append_inj_of_byteSize hcut (by
      simp [utf8Size_of_isAscii hd, ← hsize]
      omega)).1
    rw [hbehind, List.getLast?_concat]
  · intro hlast
    obtain ⟨earlier, rfl⟩ := List.getLast?_eq_some_iff.1 hlast
    have hstands : Stands (earlier ++ [d] ++ ahead) (Text.byteSize earlier) (d :: ahead) :=
      ⟨earlier, by simp, rfl⟩
    have hsize : Text.byteSize (earlier ++ [d]) = Text.byteSize earlier + 1 := by
      simp [utf8Size_of_isAscii hd]
    rw [hsize]
    exact ⟨Nat.succ_ne_zero _, hstands.peek_ascii hd⟩

/-! ## Lines and columns of a walk -/

namespace Cursor

/-- How far the walk has come on the lines. -/
def place (cursor : Cursor) : Nat ×ₗ Nat := toLex (cursor.line, cursor.column)

theorem afterReturn_afterText (text : Text) :
    (afterText text).afterReturn = true ↔ text.getLast? = some '\r' := by
  induction text using List.reverseRecOn with
  | nil => simp [afterText]
  | append_singleton text c _ =>
    rw [afterText_append_singleton, List.getLast?_concat, step]
    split
    · next hc => simpa using hc
    · next hc => split <;> simpa using hc

/-- The characters that the column counts: those since the last line terminator. -/
theorem exists_line (text : Text) :
    ∃ earlier line, text = earlier ++ line ∧ (afterText text).column = line.length ∧
      line.any isLineTerminator = false ∧
      (earlier ≠ [] → earlier.getLast?.any isLineTerminator = true) := by
  induction text using List.reverseRecOn with
  | nil => exact ⟨[], [], rfl, rfl, rfl, fun h => absurd rfl h⟩
  | append_singleton text c ih =>
    obtain ⟨earlier, line, rfl, hcolumn, hline, hearlier⟩ := ih
    rw [afterText_append_singleton]
    cases hc : isLineTerminator c with
    | true =>
      refine ⟨earlier ++ line ++ [c], [], by simp, ?_, rfl, fun _ => by simpa using hc⟩
      simp only [isLineTerminator, Bool.or_eq_true, beq_iff_eq] at hc
      rcases hc with rfl | rfl <;> simp [step]
    | false =>
      refine ⟨earlier, line ++ [c], by simp, ?_, by simp [hline, hc], hearlier⟩
      obtain ⟨hn, hr⟩ := Bool.or_eq_false_iff.1 hc
      simp [step, hn, hr, hcolumn]

theorem splitsPair_iff (behind ahead : Text) :
    Code.splitsPair (behind ++ ahead).bytes (Text.byteSize behind) = true ↔
      (afterText behind).afterReturn = true ∧ ahead.head? = some '\n' := by
  have hstands : Stands (behind ++ ahead) (Text.byteSize behind) ahead := ⟨behind, rfl, rfl⟩
  rw [afterReturn_afterText, ← peek_pred_iff behind ahead (by decide),
    ← hstands.peek_eq_some_iff (by decide), Code.splitsPair]
  simp only [Bool.and_eq_true, bne_iff_ne, beq_iff_eq]

/-- A line terminator ends a line, unless it belongs to the carriage return before it. -/
theorem endsLine_of_isLineTerminator (behind ahead : Text) {c : Char}
    (hc : isLineTerminator c = true) :
    Code.endsLine (behind ++ c :: ahead).bytes (Text.byteSize behind) =
      (c == '\r' || !(afterText behind).afterReturn) := by
  have hstands : Stands (behind ++ c :: ahead) (Text.byteSize behind) (c :: ahead) :=
    ⟨behind, rfl, rfl⟩
  have hpair := splitsPair_iff behind (c :: ahead)
  rw [Code.endsLine, hstands.peek_ascii (asciiOnly_isLineTerminator c hc)]
  simp only [isLineTerminator, Bool.or_eq_true, beq_iff_eq] at hc
  rcases hc with rfl | rfl
  · rw [List.head?_cons, and_iff_left rfl, ← Bool.eq_iff_iff] at hpair
    rw [hpair]
    rfl
  · rfl

/-- No line ends with a byte of any other character. -/
theorem not_endsLine_of_not_isLineTerminator (behind ahead : Text) {c : Char}
    (hc : isLineTerminator c = false) {i : Nat} (hi : i < c.utf8Size) :
    ¬ Code.endsLine (behind ++ c :: ahead).bytes (Text.byteSize behind + i) = true := by
  intro hends
  have hstands : Stands (behind ++ c :: ahead) (Text.byteSize behind) ([c] ++ ahead) :=
    ⟨behind, rfl, rfl⟩
  have hterminator := (Code.peek_isLineTerminator_iff _ _).1 (Code.endsLine_isLineTerminator hends)
  have hany := hstands.lineEndsBetween_iff.1
    ⟨Text.byteSize behind + i, Nat.le_add_right _ _, by simpa using hi, hterminator⟩
  simp [hc] at hany

/-- The lines that the walk has counted are those that end before its offset. -/
theorem line_afterText (behind ahead : Text) :
    (afterText behind).line =
      Nat.count (Code.endsLine (behind ++ ahead).bytes ·) (Text.byteSize behind) := by
  induction behind using List.reverseRecOn generalizing ahead with
  | nil => simp [afterText]
  | append_singleton behind c ih =>
    have hsource : behind ++ [c] ++ ahead = behind ++ c :: ahead := by simp
    rw [afterText_append_singleton, hsource, Text.byteSize_append, Nat.count_add, ← ih,
      Text.byteSize_cons, Text.byteSize_nil, Nat.add_zero]
    cases hc : isLineTerminator c with
    | true =>
      rw [utf8Size_of_isAscii (asciiOnly_isLineTerminator c hc), Nat.count_succ, Nat.count_zero,
        Nat.add_zero, endsLine_of_isLineTerminator behind ahead hc]
      simp only [isLineTerminator, Bool.or_eq_true, beq_iff_eq] at hc
      rcases hc with rfl | rfl
      · cases hreturn : (afterText behind).afterReturn <;> simp [step, hreturn]
      · simp [step]
    | false =>
      rw [Nat.count_of_forall_not fun i hi =>
        not_endsLine_of_not_isLineTerminator behind ahead hc hi]
      obtain ⟨hn, hr⟩ := Bool.or_eq_false_iff.1 hc
      simp [step, hn, hr]

/-- The line of the walk starts behind the last line terminator before its offset. -/
theorem column_afterText (behind ahead : Text) :
    (afterText behind).column = (Text.slice (behind ++ ahead)
      (Code.lineStart (behind ++ ahead).bytes (Text.byteSize behind))
      (Text.byteSize behind)).length := by
  obtain ⟨earlier, line, rfl, hcolumn, hline, hearlier⟩ := exists_line behind
  have hstart : Code.lineStart (earlier ++ line ++ ahead).bytes
      (Text.byteSize (earlier ++ line)) = Text.byteSize earlier := by
    have hstands : Stands (earlier ++ line ++ ahead) (Text.byteSize earlier) (line ++ ahead) :=
      ⟨earlier, List.append_assoc _ _ _, rfl⟩
    refine Nat.findGreatest_eq_iff.2 ⟨by simp, ?_, ?_⟩
    · intro hne
      have hlast := hearlier fun hnil => hne (by rw [hnil, Text.byteSize_nil])
      obtain ⟨d, hd, hterminator⟩ := (Option.any_eq_true _ _).1 hlast
      have hascii := asciiOnly_isLineTerminator d hterminator
      rw [List.append_assoc, ((peek_pred_iff earlier (line ++ ahead) hascii).2 hd).2]
      exact hterminator
    · intro start hlt hle hterminator
      rw [Text.byteSize_append] at hle
      have hany := hstands.lineEndsBetween_iff.1 ⟨start - 1, by omega, by omega,
        (Code.peek_isLineTerminator_iff _ _).1 hterminator⟩
      rw [hline] at hany
      cases hany
  rw [hcolumn, hstart, Text.byteSize_append, Text.slice_append]

/-! ## The order of places -/

/-- Every character leads further, except for a line feed that belongs to the carriage return
before it. -/
theorem place_lt_step {cursor : Cursor} {c : Char} (h : ¬ (c = '\n' ∧ cursor.afterReturn = true)) :
    cursor.place < (cursor.step c).place := by
  rw [place, place, Prod.Lex.toLex_lt_toLex, step]
  split
  · exact Or.inl (Nat.lt_succ_self _)
  split
  · next hc =>
    obtain rfl : c = '\n' := by simpa using hc
    have hreturn : cursor.afterReturn = false := by simpa using h
    rw [hreturn]
    exact Or.inl (Nat.lt_succ_self _)
  · exact Or.inr ⟨rfl, Nat.lt_succ_self _⟩

theorem column_of_afterReturn {text : Text} (h : (afterText text).afterReturn = true) :
    (afterText text).column = 0 := by
  obtain ⟨earlier, rfl⟩ := List.getLast?_eq_some_iff.1 ((afterReturn_afterText text).1 h)
  rw [afterText_append_singleton]
  rfl

/-- The line feed of a pair leads to the same place, and is not itself a carriage return. -/
theorem step_of_pair {text : Text} (h : (afterText text).afterReturn = true) :
    (afterText (text ++ ['\n'])).place = (afterText text).place ∧
      (afterText (text ++ ['\n'])).afterReturn = false := by
  rw [afterText_append_singleton, place, place, column_of_afterReturn h]
  simp [step, h]

theorem place_le_append (text part : Text) :
    (afterText text).place ≤ (afterText (text ++ part)).place := by
  induction part generalizing text with
  | nil => rw [List.append_nil]
  | cons c part ih =>
    have hstep : (afterText text).place ≤ (afterText (text ++ [c])).place := by
      by_cases hpair : c = '\n' ∧ (afterText text).afterReturn = true
      · obtain ⟨rfl, hreturn⟩ := hpair
        exact (step_of_pair hreturn).1.ge
      · rw [afterText_append_singleton]
        exact (place_lt_step hpair).le
    have hrest := ih (text ++ [c])
    rw [List.append_assoc, List.singleton_append] at hrest
    exact hstep.trans hrest

theorem place_lt_append {text : Text} {c : Char}
    (h : ¬ (c = '\n' ∧ (afterText text).afterReturn = true)) (part : Text) :
    (afterText text).place < (afterText (text ++ c :: part)).place := by
  have hrest := place_le_append (text ++ [c]) part
  rw [List.append_assoc, List.singleton_append, afterText_append_singleton] at hrest
  exact (place_lt_step h).trans_le hrest

/-- Two places are the same only on both sides of the line feed of a pair. -/
theorem place_append_eq_iff (text : Text) {part : Text} (hne : part ≠ []) :
    (afterText text).place = (afterText (text ++ part)).place ↔
      (afterText text).afterReturn = true ∧ part = ['\n'] := by
  obtain ⟨c, part, rfl⟩ := List.exists_cons_of_ne_nil hne
  constructor
  · intro hsame
    by_cases hpair : c = '\n' ∧ (afterText text).afterReturn = true
    · obtain ⟨rfl, hreturn⟩ := hpair
      refine ⟨hreturn, ?_⟩
      -- A further character would lead on, since no carriage return stands before it now.
      cases part with
      | nil => rfl
      | cons d part =>
        obtain ⟨hplace, hreturn'⟩ := step_of_pair hreturn
        have hpair : ¬ (d = '\n' ∧ (afterText (text ++ ['\n'])).afterReturn = true) := by
          simp [hreturn']
        have hlt := place_lt_append hpair part
        rw [hplace, hsame, List.append_assoc, List.singleton_append] at hlt
        exact absurd hlt (lt_irrefl _)
    · exact absurd hsame (place_lt_append hpair part).ne
  · rintro ⟨hreturn, hpart⟩
    rw [hpart]
    exact (step_of_pair hreturn).1.symm

end Cursor

/-! ## The law -/

namespace Position

def place (position : Position) : Nat ×ₗ Nat := toLex (position.line, position.column)

theorem place_resolve (behind ahead : Text) :
    (resolve (behind ++ ahead) (Text.byteSize behind)).place = (Cursor.afterText behind).place := by
  rw [resolve, Text.takeBytes_byteSize_append]
  rfl

end Position

/-- Between two offsets in order lies a part of the source. -/
theorem exists_part_of_lt {source : Text} {i j : Nat}
    (hi : Code.isBoundary source.bytes i = true) (hj : Code.isBoundary source.bytes j = true)
    (h : i < j) : ∃ behind part ahead, source = behind ++ part ++ ahead ∧ part ≠ [] ∧
      i = Text.byteSize behind ∧ j = Text.byteSize (behind ++ part) := by
  obtain ⟨ahead, behind, hsource, rfl⟩ := exists_stands_of_isBoundary hi
  obtain ⟨ahead', behind', hsource', rfl⟩ := exists_stands_of_isBoundary hj
  rcases List.append_eq_append_iff.1 (hsource.symm.trans hsource') with
    ⟨part, rfl, rfl⟩ | ⟨part, rfl, rfl⟩
  · refine ⟨behind, part, ahead', hsource', ?_, rfl, rfl⟩
    rintro rfl
    simp at h
  · rw [Text.byteSize_append] at h
    omega

/-- The offsets on both sides of the line feed of a pair, by the text between them. -/
theorem splitsPair_part_iff (behind part ahead : Text) (hne : part ≠ []) :
    Code.splitsPair (behind ++ part ++ ahead).bytes (Text.byteSize behind) = true ∧
        Text.byteSize (behind ++ part) = Text.byteSize behind + 1 ↔
      (Cursor.afterText behind).afterReturn = true ∧ part = ['\n'] := by
  obtain ⟨c, part, rfl⟩ := List.exists_cons_of_ne_nil hne
  rw [List.append_assoc, Cursor.splitsPair_iff, List.cons_append, List.head?_cons,
    Option.some.injEq, and_assoc, List.cons.injEq]
  refine and_congr_right fun _ => and_congr_right fun hc => ?_
  rw [hc, ← Text.byteSize_eq_zero_iff part, Text.byteSize_append, Text.byteSize_cons,
    show Char.utf8Size '\n' = 1 from rfl]
  omega

/-- The line of an offset is the number of lines that end before it, and its column is the number
of characters since the last line terminator or the start. So the places are in the order of their
offsets. Two of them are the same only on both sides of a line feed that belongs to the carriage
return before it, and every other place tells its offset. -/
theorem places_tell_offsets_apart (source : Text) :
    (∀ offset, Code.isBoundary source.bytes offset = true →
      let position := Position.resolve source offset
      position.offset = offset ∧
      position.line = Nat.count (Code.endsLine source.bytes ·) offset ∧
      position.column =
        (Text.slice source (Code.lineStart source.bytes offset) offset).length) ∧
    (∀ i j, Code.isBoundary source.bytes i = true → Code.isBoundary source.bytes j = true → i < j →
      (Position.resolve source i).place ≤ (Position.resolve source j).place ∧
      ((Position.resolve source i).place = (Position.resolve source j).place ↔
        Code.splitsPair source.bytes i = true ∧ j = i + 1)) ∧
    ∀ i j, Code.isBoundary source.bytes i = true → Code.isBoundary source.bytes j = true →
      Code.splitsPair source.bytes i = false → Code.splitsPair source.bytes j = false →
      (Position.resolve source i).place = (Position.resolve source j).place → i = j := by
  have hordered : ∀ i j, Code.isBoundary source.bytes i = true →
      Code.isBoundary source.bytes j = true → i < j →
      (Position.resolve source i).place ≤ (Position.resolve source j).place ∧
      ((Position.resolve source i).place = (Position.resolve source j).place ↔
        Code.splitsPair source.bytes i = true ∧ j = i + 1) := by
    intro i j hi hj hlt
    obtain ⟨behind, part, ahead, rfl, hne, rfl, rfl⟩ := exists_part_of_lt hi hj hlt
    rw [splitsPair_part_iff behind part ahead hne, Position.place_resolve, List.append_assoc,
      Position.place_resolve]
    exact ⟨Cursor.place_le_append behind part, Cursor.place_append_eq_iff behind hne⟩
  refine ⟨?_, hordered, ?_⟩
  · intro offset hoffset
    obtain ⟨ahead, behind, rfl, rfl⟩ := exists_stands_of_isBoundary hoffset
    rw [← Cursor.line_afterText, ← Cursor.column_afterText, Position.resolve,
      Text.takeBytes_byteSize_append]
    exact ⟨rfl, rfl, rfl⟩
  · intro i j hi hj hpair hpair' hsame
    rcases Nat.lt_trichotomy i j with hlt | heq | hlt
    · have hsplits := ((hordered i j hi hj hlt).2.1 hsame).1
      rw [hpair] at hsplits
      cases hsplits
    · exact heq
    · have hsplits := ((hordered j i hj hi hlt).2.1 hsame.symm).1
      rw [hpair'] at hsplits
      cases hsplits

/-- In `é`, a carriage return with its line feed and `x`, both sides of the line feed have one
place, and the end is one character further on the same line. -/
theorem line_feed_of_a_pair_has_one_place :
    let source : Text := "é\r\nx".toList
    (Code.isBoundary source.bytes 3 = true ∧ Code.isBoundary source.bytes 4 = true ∧
      Code.isBoundary source.bytes 5 = true) ∧
    (Position.resolve source 5).line = Nat.count (Code.endsLine source.bytes ·) 5 ∧
    (Position.resolve source 5).column = 1 ∧
    (Position.resolve source 3).place = (Position.resolve source 4).place ∧
    (Position.resolve source 4).place ≠ (Position.resolve source 5).place := by
  intro source
  obtain ⟨hcounts, hordered, hapart⟩ := places_tell_offsets_apart source
  have hthree : Code.isBoundary source.bytes 3 = true := by decide +kernel
  have hfour : Code.isBoundary source.bytes 4 = true := by decide +kernel
  have hfive : Code.isBoundary source.bytes 5 = true := by decide +kernel
  have hsplits : Code.splitsPair source.bytes 3 = true := by decide +kernel
  refine ⟨⟨hthree, hfour, hfive⟩, (hcounts 5 hfive).2.1, ?_, ?_, ?_⟩
  · rw [(hcounts 5 hfive).2.2]
    decide +kernel
  · exact (hordered 3 4 hthree hfour (by decide)).2.2 ⟨hsplits, rfl⟩
  · intro hsame
    exact absurd (hapart 4 5 hfour hfive (by decide +kernel) (by decide +kernel) hsame) (by decide)

end ScriptMinifier
