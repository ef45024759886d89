-- How long the lines of a minified script grow. A line is broken before a piece that would take it
-- past the limit, wherever a break does no harm. The space that sets the piece apart is left out of
-- that count, so a line can still come out one character too long.
import ScriptMinifier.Proofs.Trace

namespace ScriptMinifier

/-! ## Characters on a line -/

namespace Page

/-- How many characters stand behind the last line break on a page. -/
def lineLength (page : Page) : Nat :=
  ((page.marks.takeWhile (· != .newline)).flatMap Mark.text).length

theorem lineLength_write (page : Page) (text : Text) :
    (page.write text).lineLength = page.lineLength + text.length := by
  unfold lineLength Page.write
  rw [List.takeWhile_cons_of_pos rfl, List.flatMap_cons, List.length_append]
  exact Nat.add_comm _ _

theorem lineLength_space (page : Page) : page.space.lineLength = page.lineLength + 1 := by
  unfold lineLength Page.space
  rw [List.takeWhile_cons_of_pos rfl, List.flatMap_cons, List.length_append]
  exact Nat.add_comm _ _

/-- The page has this limit, and its column counts the characters of the line. -/
structure IsMeasured (limit : Nat) (page : Page) : Prop where
  limit : page.limit = limit
  column : page.column = page.lineLength

namespace IsMeasured

variable {limit : Nat} {page : Page}

theorem blank (limit : Nat) : IsMeasured limit (.blank limit) := ⟨rfl, rfl⟩

theorem write (h : page.IsMeasured limit) (text : Text) : (page.write text).IsMeasured limit := by
  refine ⟨h.limit, ?_⟩
  rw [lineLength_write, ← h.column]
  rfl

theorem space (h : page.IsMeasured limit) : page.space.IsMeasured limit := by
  refine ⟨h.limit, ?_⟩
  rw [lineLength_space, ← h.column]
  rfl

theorem newline (h : page.IsMeasured limit) : page.newline.IsMeasured limit :=
  ⟨h.limit, rfl⟩

theorem set (h : page.IsMeasured limit) (text : Text) (c : TokenClass) (kept matters : Bool) :
    (page.set text c kept matters).IsMeasured limit := by
  unfold Page.set
  split
  · exact h.write text
  · split
    · exact h.newline.write text
    · split
      · exact h.space.write text
      · exact h.write text

end IsMeasured

end Page

namespace Writer

/-- The writer works in this style, on a page that is measured. -/
structure WorksIn (style : Style) (writer : Writer) : Prop where
  ofStyle : writer.style = style
  measured : writer.page.IsMeasured style.maxLineLength

namespace WorksIn

variable {style : Style} {writer : Writer}

theorem start (style : Style) : WorksIn style (.ofStyle style) := ⟨rfl, .blank _⟩

theorem settle (h : writer.WorksIn style) (next : Option Text) :
    (writer.settle next).WorksIn style := by
  unfold Writer.settle
  split
  · exact h
  · exact ⟨h.ofStyle, h.measured.set ..⟩

theorem keepBreak (h : writer.WorksIn style) : writer.keepBreak.WorksIn style :=
  ⟨h.ofStyle, h.measured.newline⟩

theorem put (h : writer.WorksIn style) (text : Text) (c : TokenClass) (kept matters : Bool) :
    (writer.put text c kept matters).WorksIn style := by
  unfold Writer.put
  split
  · exact ⟨h.ofStyle, h.measured⟩
  · exact ⟨h.ofStyle, h.measured.set ..⟩

theorem advance (h : writer.WorksIn style) (c : TokenClass) :
    (writer.advance c).WorksIn style := by
  refine ⟨h.ofStyle, ?_⟩
  unfold Writer.advance
  dsimp only
  split
  · exact h.measured.newline
  · exact h.measured

theorem accept (h : writer.WorksIn style) (token : Token) :
    (writer.accept token).WorksIn style := by
  have hopened : ∀ kept : Bool, (if kept then (writer.settle (some token.text)).keepBreak
      else writer.settle (some token.text)).WorksIn style := by
    intro kept
    split
    · exact (h.settle _).keepBreak
    · exact h.settle _
  obtain ⟨hstyle, hpage⟩ := ((hopened _).put token.text _ _ _).advance _
  exact ⟨hstyle, hpage⟩

theorem foldl_accept (h : writer.WorksIn style) (tokens : List Token) :
    (tokens.foldl Writer.accept writer).WorksIn style := by
  induction tokens generalizing writer with
  | nil => exact h
  | cons token rest ih => exact ih (h.accept token)

end WorksIn

end Writer

/-! ## One piece -/

/-- On pages without lines of their own, a piece is set on a new line, behind a space or right
behind the last piece. The last two happen only if no break is kept and the line is not broken. -/
theorem Page.lay_cases (page : Page) (s : Setting) :
    page.lay false s = page.newline.write s.piece ∨
    (s.breakKept = false ∧
      (page.overflows s.piece = true → s.breakMatters = true ∨ s.tokenClass = .increment ∨
        s.tokenClass = .arrow) ∧
      (page.lay false s = page.space.write s.piece ∨ page.lay false s = page.write s.piece)) := by
  unfold lay set
  rw [Bool.false_and, if_neg (by decide)]
  cases hkept : s.breakKept with
  | true => exact Or.inl rfl
  | false =>
    rw [if_neg Bool.false_ne_true, if_neg Bool.false_ne_true]
    split
    · exact Or.inl rfl
    · next hjoined =>
      refine Or.inr ⟨rfl, ?_, ?_⟩
      · intro hoverflows
        by_cases hmatters : s.breakMatters = true
        · exact Or.inl hmatters
        · by_cases hincrement : s.tokenClass = .increment
          · exact Or.inr (Or.inl hincrement)
          · by_cases harrow : s.tokenClass = .arrow
            · exact Or.inr (Or.inr harrow)
            · exact absurd (by simp [hoverflows, hmatters, hincrement, harrow]) hjoined
      · split
        · exact Or.inl rfl
        · exact Or.inr rfl

theorem Page.length_le_column_lay (page : Page) (s : Setting) :
    s.piece.length ≤ (page.lay false s).column := by
  rcases page.lay_cases s with h | ⟨_, _, h | h⟩
  · rw [h]
    exact Nat.le_add_left _ _
  · rw [h]
    exact Nat.le_add_left _ _
  · rw [h]
    exact Nat.le_add_left _ _

/-- What a piece does to its line. If the line is not empty, no break stands before the piece and a
break would do no harm, then the piece fits without its space. -/
theorem Page.marks_lay_and_column_iff (page : Page) (s : Setting) :
    ∃ gap : List Mark, (page.lay false s).marks = .piece s.piece :: (gap ++ page.marks) ∧
      (0 < page.column → .newline ∉ gap → s.breakMatters = false → s.tokenClass ≠ .increment →
        s.tokenClass ≠ .arrow →
        ((page.lay false s).column ≤ page.limit ↔
          ¬ (gap = [.space] ∧ page.column + s.piece.length = page.limit)) ∧
        (page.lay false s).column ≤ page.limit + 1) := by
  rcases page.lay_cases s with h | ⟨_, hunbroken, h⟩
  · refine ⟨[.newline], by rw [h]; rfl, ?_⟩
    intro _ hgap
    exact absurd (List.mem_singleton.2 rfl) hgap
  · have hfits : 0 < page.column → s.breakMatters = false → s.tokenClass ≠ .increment →
        s.tokenClass ≠ .arrow → page.column + s.piece.length ≤ page.limit := by
      intro hfilled hmatters hincrement harrow
      by_contra hlong
      have hoverflows : page.overflows s.piece = true := by
        unfold overflows
        simp only [Bool.and_eq_true, decide_eq_true_eq]
        omega
      rcases hunbroken hoverflows with h' | h' | h'
      · rw [hmatters] at h'
        cases h'
      · exact hincrement h'
      · exact harrow h'
    rcases h with h | h
    · refine ⟨[.space], by rw [h]; rfl, fun hfilled _ hmatters hincrement harrow => ?_⟩
      have hroom := hfits hfilled hmatters hincrement harrow
      have hcolumn : (page.lay false s).column = page.column + 1 + s.piece.length := by
        rw [h]
        rfl
      rw [hcolumn]
      simp only [true_and]
      omega
    · refine ⟨[], by rw [h]; rfl, fun hfilled _ hmatters hincrement harrow => ?_⟩
      have hroom := hfits hfilled hmatters hincrement harrow
      have hcolumn : (page.lay false s).column = page.column + s.piece.length := by
        rw [h]
        rfl
      rw [hcolumn]
      simp only [List.nil_eq, reduceCtorEq, false_and, not_false_eq_true, iff_true]
      omega

/-! ## The writer at a token -/

namespace Writer

@[simp]
theorem accept_settle (writer : Writer) (token : Token) :
    (writer.settle (some token.text)).accept token = writer.accept token := by
  unfold accept
  rw [settle_of_held_none (held_settle writer (some token.text))]

/-- Behind the tokens of a trace the writer has the tracker of the next entry. -/
theorem foldl_accept_of_trace {writer : Writer} {tokens : List Token}
    {before after : List (Tracker × Token)} {tracker : Tracker} {token : Token}
    (h : writer.tracker.trace writer.previous tokens = before ++ (tracker, token) :: after) :
    ((before.map Prod.snd).foldl accept writer).tracker = tracker ∧
      ((before.map Prod.snd).foldl accept writer).previous =
        (before.getLast?.map Prod.snd).or writer.previous := by
  induction before generalizing writer tokens with
  | nil =>
    cases tokens with
    | nil => cases h
    | cons other rest => exact ⟨congrArg Prod.fst (List.cons.inj h).1, rfl⟩
  | cons entry before ih =>
    cases tokens with
    | nil => cases h
    | cons other rest =>
      rw [Tracker.trace, List.cons_append] at h
      obtain ⟨rfl, hrest⟩ := List.cons.inj h
      rw [← tracker_accept] at hrest
      obtain ⟨htracker, hprevious⟩ := ih hrest
      refine ⟨htracker, hprevious.trans ?_⟩
      rw [List.getLast?_cons]
      cases before.getLast? <;> rfl

/-- The style has no part in what the writer is handed. -/
theorem log_ofText (style : Style) (source : Text) :
    (ofStyle style).log (.ofText source) = (Reader.ofText source).log :=
  log_eq_log _ (.ofText source) (abreast_at_start source style)

theorem text_ne_nil_of_mem_log {style : Style} {source : Text} {entry : Tracker × Token}
    (h : entry ∈ (ofStyle style).log (.ofText source)) : entry.2.text ≠ [] := by
  rw [log_ofText] at h
  obtain ⟨lexer, after, hnext, hs⟩ := Reader.exists_next_of_mem_log h
  apply (Lexer.takes_of_next hnext).filled
  intro hk
  rw [Token.isSignificant, hk] at hs
  cases hs

/-- What has been written stays. -/
theorem exists_finish_eq_append (writer : Writer) (tokens : List Token) :
    ∃ behind, (tokens.foldl accept writer).finish =
      (writer.settle (nextText tokens)).page.text ++ behind := by
  unfold finish
  rw [← settle_foldl_settle, page_foldl_accept (held_settle _ _), text_foldl_lay_added]
  exact ⟨_, rfl⟩

/-- Once a token has been written, its line is not empty. -/
theorem column_pos {style : Style} (hstyle : style.statementsOnOwnLine = false)
    {tokens : List Token} (hne : tokens ≠ []) (htokens : ∀ token ∈ tokens, token.text ≠ [])
    (next : Option Text) :
    0 < ((tokens.foldl accept (ofStyle style)).settle next).page.column := by
  rcases List.eq_nil_or_concat tokens with rfl | ⟨first, last, rfl⟩
  · exact absurd rfl hne
  · have hlast : last.text ≠ [] := htokens last (by simp)
    rw [List.concat_eq_append, List.foldl_append, List.foldl_cons, List.foldl_nil,
      ← accept_settle, settle_accept (held_settle _ _)]
    generalize hwriter : (first.foldl accept (ofStyle style)).settle (some last.text) = writer
    have hworks : writer.WorksIn style := by
      rw [← hwriter]
      exact ((WorksIn.start style).foldl_accept first).settle _
    rw [hworks.ofStyle, hstyle]
    exact Nat.lt_of_lt_of_le (List.length_pos_iff.2 (Draft.piece_ne_nil hlast _ _))
      (writer.page.length_le_column_lay (writer.draft.setting last next))

section

variable {source : Text} {style : Style} {before after : List (Tracker × Token)}
  {tracker : Tracker} {token : Token}

/-- The writer that meets a token of the log knows its class and whether a break before it
matters. -/
theorem draft_of_log
    (hlog : (ofStyle style).log (.ofText source) = before ++ (tracker, token) :: after) :
    let c := token.classAfter (before.getLast?.map Prod.snd)
    let writer := ((before.map Prod.snd).foldl accept (ofStyle style)).settle (some token.text)
    writer.draft.tokenClass token = c ∧
      writer.draft.breakMatters token = tracker.breaksBefore c := by
  intro c writer
  have htrace : (ofStyle style).tracker.trace (ofStyle style).previous
      ((Reader.ofText source).log.map Prod.snd) = before ++ (tracker, token) :: after := by
    rw [← hlog, log_ofText]
    exact (Reader.log_eq_trace_map (.ofText source)).symm
  obtain ⟨htracker, hprevious⟩ := foldl_accept_of_trace htrace
  have hclass : writer.draft.tokenClass token = c := by
    show token.classAfter writer.previous = c
    rw [previous_settle, hprevious]
    exact congrArg token.classAfter Option.or_none
  refine ⟨hclass, ?_⟩
  show writer.tracker.breaksBefore (writer.draft.tokenClass token) = _
  rw [tracker_settle, htracker, hclass]

/-- A minified script starts with all that is written up to a token of the log. -/
theorem exists_minifyText_eq_append
    (hlog : (ofStyle style).log (.ofText source) = before ++ (tracker, token) :: after)
    {read : List Token} (hread : tokens source = .ok read) :
    ∃ behind, minifyText source style =
      .ok (((((before.map Prod.snd).foldl accept (ofStyle style)).accept token).settle
        (nextText (after.map Prod.snd))).page.text ++ behind) := by
  have htokens : read.filter Token.isSignificant =
      before.map Prod.snd ++ token :: after.map Prod.snd := by
    rw [log_ofText] at hlog
    rw [← Reader.map_log hread]
    exact (congrArg (List.map Prod.snd) hlog).trans (by simp)
  obtain ⟨behind, hbehind⟩ := exists_finish_eq_append
    (((before.map Prod.snd).foldl accept (ofStyle style)).accept token) (after.map Prod.snd)
  refine ⟨behind, ?_⟩
  rw [minifyText_eq_map_tokens, hread, ← hbehind]
  show Except.ok ((read.filter Token.isSignificant).foldl accept _).finish = _
  rw [htokens, List.foldl_append, List.foldl_cons]

end

end Writer

/-! ## The law -/

/-- In a style without lines of their own for statements, the pieces of a script go to the page one
by one, each behind a gap. Take a piece whose line holds another piece already and before which a
break would do no harm. Its line then keeps to the limit, unless the piece fills it to the limit
without the space that sets it apart. In that case the line is one character too long. -/
theorem line_outgrows_the_limit_only_by_a_space {source : Text} {style : Style}
    (hstyle : style.statementsOnOwnLine = false) {before after : List (Tracker × Token)}
    {tracker : Tracker} {token : Token}
    (hlog : (Writer.ofStyle style).log (.ofText source) = before ++ (tracker, token) :: after) :
    let c := token.classAfter (before.getLast?.map Prod.snd)
    let writer := ((before.map Prod.snd).foldl Writer.accept (.ofStyle style)).settle
      (some token.text)
    let written := (writer.accept token).settle (nextText (after.map Prod.snd))
    ∃ (piece : Text) (gap : List Mark),
      written.page.marks = .piece piece :: (gap ++ writer.page.marks) ∧
      written.page.column = written.page.lineLength ∧
      (∀ read, tokens source = .ok read →
        ∃ behind, minifyText source style = .ok (written.page.text ++ behind)) ∧
      (before ≠ [] → .newline ∉ gap → tracker.breaksBefore c = false → c ≠ .increment →
        c ≠ .arrow →
        (written.page.column ≤ style.maxLineLength ↔
          ¬ (gap = [.space] ∧ writer.page.column + piece.length = style.maxLineLength)) ∧
        written.page.column ≤ style.maxLineLength + 1) := by
  intro c writer written
  obtain ⟨hclass, hmatters⟩ := Writer.draft_of_log hlog
  have hworks : writer.WorksIn style :=
    ((Writer.WorksIn.start style).foldl_accept (before.map Prod.snd)).settle _
  have hwritten : written.WorksIn style := (hworks.accept token).settle _
  -- Accepting the token and settling it lays one piece on the page of the writer.
  have hpage : written.page =
      writer.page.lay false (writer.draft.setting token (nextText (after.map Prod.snd))) := by
    rw [← hstyle, ← hworks.ofStyle]
    exact congrArg Writer.page (Writer.settle_accept (Writer.held_settle _ _) token _)
  obtain ⟨gap, hmarks, hcolumn⟩ := writer.page.marks_lay_and_column_iff
    (writer.draft.setting token (nextText (after.map Prod.snd)))
  rw [← hpage, hworks.measured.limit] at hcolumn
  refine ⟨_, gap, by rw [hpage]; exact hmarks, hwritten.measured.column, ?_, ?_⟩
  · intro read hread
    obtain ⟨behind, hbehind⟩ := Writer.exists_minifyText_eq_append hlog hread
    refine ⟨behind, hbehind.trans ?_⟩
    rw [← Writer.accept_settle]
  · intro hbefore hgap hharmless hincrement harrow
    have hfilled : ∀ earlier ∈ before.map Prod.snd, earlier.text ≠ [] := by
      intro earlier hearlier
      obtain ⟨entry, hentry, rfl⟩ := List.mem_map.1 hearlier
      have hmem : entry ∈ (Writer.ofStyle style).log (.ofText source) := by
        rw [hlog]
        exact List.mem_append_left _ hentry
      exact Writer.text_ne_nil_of_mem_log hmem
    have hne : before.map Prod.snd ≠ [] := by simpa using hbefore
    exact hcolumn (Writer.column_pos hstyle hne hfilled _) hgap (hmatters.trans hharmless)
      (fun h => hincrement (hclass.symm.trans h)) (fun h => harrow (hclass.symm.trans h))

/-- A name that fills its line to the last character fits, with the space before it. -/
theorem last_name_fills_its_line :
    ∃ (written : Writer) (behind : Text),
      minifyText "var ab".toList ⟨6, false⟩ = .ok (written.page.text ++ behind) ∧
      written.page.text = "var ab".toList ∧
      written.page.column = written.page.lineLength ∧ written.page.column ≤ 6 := by
  have hread : tokens "var ab".toList = .ok
      [⟨.keyword, "var".toList, 0, false⟩, ⟨.blank, [' '], 3, false⟩,
        ⟨.identifier, "ab".toList, 4, false⟩] := eq_ok_of_toOption (by decide +kernel)
  have hlog : (Writer.ofStyle ⟨6, false⟩).log (.ofText "var ab".toList) =
      [(.start, ⟨.keyword, "var".toList, 0, false⟩)] ++
        (⟨.statement, []⟩, ⟨.identifier, "ab".toList, 4, false⟩) :: [] := by decide +kernel
  obtain ⟨piece, gap, hmarks, hcolumn, hminified, hfits⟩ :=
    line_outgrows_the_limit_only_by_a_space (rfl : Style.statementsOnOwnLine ⟨6, false⟩ = false)
      hlog
  obtain ⟨behind, hbehind⟩ := hminified _ hread
  have hpiece : Mark.piece piece = .piece "ab".toList :=
    Option.some.inj ((congrArg List.head? hmarks).symm.trans (by decide +kernel))
  have hgap : gap = [.space] :=
    List.append_cancel_right ((congrArg List.tail hmarks).symm.trans (by decide +kernel))
  refine ⟨_, behind, hbehind, by decide +kernel, hcolumn, (hfits ?_ ?_ ?_ ?_ ?_).1.2 ?_⟩
  · exact List.cons_ne_nil _ _
  · rw [hgap]
    decide
  · decide +kernel
  · decide +kernel
  · decide +kernel
  · rw [Mark.piece.inj hpiece, hgap]
    decide +kernel

/-- With the space before it, a name takes its line past the limit. -/
theorem space_takes_a_line_past_the_limit :
    ∃ (before after : List (Tracker × Token)) (tracker : Tracker) (token : Token)
      (written : Writer),
      (Writer.ofStyle ⟨4, false⟩).log (.ofText "var a".toList) =
        before ++ (tracker, token) :: after ∧ before ≠ [] ∧
      tracker.breaksBefore (token.classAfter (before.getLast?.map Prod.snd)) = false ∧
      token.classAfter (before.getLast?.map Prod.snd) = .literal ∧
      (((before.map Prod.snd).foldl Writer.accept (.ofStyle ⟨4, false⟩)).accept token).settle
        (nextText (after.map Prod.snd)) = written ∧
      written.page.marks = [.piece ['a'], .space, .piece "var".toList] ∧
      written.page.column = 5 ∧
      minifyText "var a".toList ⟨4, false⟩ = .ok "var a".toList := by
  refine ⟨[(.start, ⟨.keyword, "var".toList, 0, false⟩)], [], ⟨.statement, []⟩,
    ⟨.identifier, ['a'], 4, false⟩, _, ?_, List.cons_ne_nil _ _, ?_, ?_, rfl, ?_, ?_, ?_⟩
  · decide +kernel
  · decide +kernel
  · decide +kernel
  · decide +kernel
  · decide +kernel
  · exact eq_ok_of_toOption (by decide +kernel)

end ScriptMinifier
