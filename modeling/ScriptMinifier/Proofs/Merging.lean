-- Reading one token back from a page. The page puts a space between two words and behind an
-- integer that a dot follows, and that is enough for every word, string and template, and for
-- every number that does not end in a dot. It is not enough for a regular expression without
-- flags, which takes the letters of the next word for its own.
import ScriptMinifier.Proofs.Lookahead
import ScriptMinifier.Proofs.Trace

namespace ScriptMinifier

open Character Lexeme

/-! ## What stands behind a piece -/

theorem setApart_of_isBlank {piece behind : Text} {c : Char} (hc : isBlank c = true) :
    SetApart piece (c :: behind) := by
  have hbreak : isWordBreak c = true := by simp [isWordBreak, hc]
  refine ⟨fun _ d hd => ?_, fun _ d hd => ?_⟩
  · obtain rfl : c = d := by simpa using hd
    exact hbreak
  · rintro rfl
    obtain rfl : c = '.' := by simpa using hd
    cases hc

/-- Without a space the page has found nothing that would join the next piece to the last one. -/
theorem Page.setApart_of_not_needsSpace {page : Page} {piece next behind : Text}
    (hlast : ∀ c ∈ piece.getLast?, page.last = c)
    (hinteger : page.endsInInteger = isPlainInteger piece) (hpiece : piece ≠ [])
    (hnext : next ≠ []) (h : page.needsSpace next = false) : SetApart piece (next ++ behind) := by
  obtain ⟨c, next, rfl⟩ := List.exists_cons_of_ne_nil hnext
  simp only [needsSpace, Bool.or_eq_false_iff, Bool.and_eq_false_iff, Bool.not_eq_false'] at h
  obtain ⟨⟨⟨hwords, _⟩, _⟩, hdot⟩ := h
  refine ⟨fun hword d hd => ?_, fun hplain d hd => ?_⟩
  · obtain rfl : c = d := by simpa using hd
    have hend := List.getLast?_eq_some_getLast hpiece
    have hoperator := hword _ hend
    rw [← hlast _ hend] at hoperator
    rcases hwords with hwords | hwords
    · rw [hwords] at hoperator
      cases hoperator
    · simp [isWordBreak, hwords]
  · obtain rfl : c = d := by simpa using hd
    rw [hinteger, hplain] at hdot
    simpa using hdot

theorem Page.setApart_added {page : Page} {piece : Text} {ownLine : Bool} {later : List Setting}
    (hlast : ∀ c ∈ piece.getLast?, page.last = c)
    (hinteger : page.endsInInteger = isPlainInteger piece) (hpiece : piece ≠ [])
    (hlater : ∀ s ∈ later, s.piece ≠ []) : SetApart piece (page.added ownLine later) := by
  cases later with
  | nil => constructor <;> simp [added, StopsWord]
  | cons s later =>
    rw [added]
    unfold gapBefore
    split
    · exact setApart_of_isBlank rfl
    split
    · exact setApart_of_isBlank rfl
    split
    · exact setApart_of_isBlank rfl
    · next hspace =>
      rw [List.nil_append]
      exact setApart_of_not_needsSpace hlast hinteger hpiece (hlater s (by simp))
        (by simpa using hspace)

/-- What a page puts behind a piece sets it apart. -/
theorem Page.setApart_behind (page : Page) {s : Setting} (ownLine : Bool) {later : List Setting}
    (hpiece : s.piece ≠ []) (hlater : ∀ s ∈ later, s.piece ≠ []) :
    SetApart s.piece (s.lineEnd ownLine ++ (page.lay ownLine s).added ownLine later) := by
  unfold Setting.lineEnd
  split
  · exact setApart_of_isBlank rfl
  · apply setApart_added
    · intro c hc
      rw [last_lay, hc]
      rfl
    · rw [endsInInteger_lay]
    · exact hpiece
    · exact hlater

theorem piece_ne_nil_of_mem_settings {draft : Draft} {tokens : List Token}
    (h : ∀ token ∈ tokens, token.text ≠ []) : ∀ s ∈ settings draft tokens, s.piece ≠ [] := by
  induction tokens generalizing draft with
  | nil => simp [settings]
  | cons token rest ih =>
    obtain ⟨htoken, hrest⟩ := List.forall_mem_cons.1 h
    rw [settings, List.forall_mem_cons]
    exact ⟨Draft.piece_ne_nil htoken draft _, ih hrest⟩

/-! ## A lexer in the middle of a script -/

namespace Lexer

/-- A lexer that is set down at a byte offset. -/
def setDown (source : Text) (offset : Nat) (margin : Margin) : Lexer :=
  { source, offset, rest := Text.dropBytes offset source, margin }

/-- The next token has the text and the kind of this one. -/
def Rereads (lexer : Lexer) (slash : Slash) (token : Token) : Prop :=
  ∃ again after, lexer.next slash = (.ok again, after) ∧ again.text = token.text ∧
    again.kind = token.kind

theorem peek_of_next {lexer after : Lexer} {slash : Slash} {token : Token}
    (h : lexer.next slash = (.ok token, after)) :
    ∃ found, lexer.peek slash = (token.kind, found) ∧ found.fault = none ∧
      token.text = found.lexeme lexer.rest := by
  obtain ⟨kind, found, hpeek, hf, rfl, _⟩ := exists_scan_of_next h
  exact ⟨found, hpeek, hf, rfl⟩

/-- A token that was read from one text is read from another one that starts with it, unless it
takes in what stands behind it there. -/
theorem rereads_iff {lexer after other : Lexer} {slash : Slash} {token : Token} {behind : Text}
    (h : lexer.next slash = (.ok token, after)) (hs : token.isSignificant = true)
    (hp : token.kind ≠ .punctuator) (hrest : other.rest = token.text ++ behind)
    (hb : SetApart token.text behind) :
    other.Rereads slash token ↔ takesIn token.kind token.text behind = false := by
  obtain ⟨found, hpeek, hf, htext⟩ := peek_of_next h
  obtain ⟨hlength, hreread⟩ := exists_reread hpeek hs hp hf
  rw [← htext] at hlength hreread
  obtain ⟨again, hagain, hsame⟩ := hreread behind hb other.isAtLineStart
  have hother : other.peek slash = (token.kind, again) := by
    rw [peek, hrest, hagain]
  cases htakes : takesIn token.kind token.text behind with
  | false =>
    rw [htakes, if_neg (by decide)] at hsame
    subst hsame
    refine iff_of_true
      ⟨other.tokenAt token.kind again, other.skip token.kind again, ?_, ?_, rfl⟩ rfl
    · simp only [next, hother, hf]
    · rw [tokenAt, Scan.lexeme, hrest, hlength, List.take_left]
  | true =>
    rw [htakes, if_pos rfl] at hsame
    refine iff_of_false ?_ (by decide)
    rintro ⟨token', after', hnext, htext', _⟩
    obtain ⟨found', hpeek', hf', hlexeme⟩ := peek_of_next hnext
    rw [hother] at hpeek'
    obtain ⟨_, rfl⟩ := Prod.mk.inj hpeek'
    rcases hsame with hfault | hlonger
    · exact hfault hf'
    · have hbehind : 0 < behind.length := by
        apply List.length_pos_iff.2
        rintro rfl
        rw [takesIn_nil] at htakes
        cases htakes
      have hsizes := congrArg List.length hlexeme
      rw [htext', hrest, Scan.lexeme, List.length_take, List.length_append] at hsizes
      omega

end Lexer

/-! ## The law -/

/-- Every word or literal of a script that is written as it stands there is read back from the
minified script, at the place where it was written and with the slash as it was read before, if
and only if it does not take in what stands behind it. -/
theorem written_token_rereads_iff {source : Text} {read : List Token} (style : Style)
    (hread : tokens source = .ok read) {before after : List (Tracker × Token)} {tracker : Tracker}
    {token : Token} (hlog : (Reader.ofText source).log = before ++ (tracker, token) :: after)
    (hkind : token.kind ≠ .punctuator) :
    let page := planned style ((plan read).take before.length)
    ∃ (s : Setting) (behind : Text), (plan read)[before.length]? = some s ∧
      minifyText source style = .ok (page.text ++ page.gapBefore s ++ (s.piece ++ behind)) ∧
      (s.piece = token.text → ∀ margin,
        ((Lexer.setDown (page.text ++ page.gapBefore s ++ (s.piece ++ behind))
            (Text.byteSize (page.text ++ page.gapBefore s)) margin).Rereads tracker.slash token ↔
          takesIn token.kind token.text behind = false)) := by
  intro page
  obtain ⟨here, _, _, hplan⟩ := plan_of_log hread hlog
  have hsetting : (plan read)[before.length]? =
      some (here.setting token (nextText (after.map Prod.snd))) := hplan 0
  generalize here.setting token (nextText (after.map Prod.snd)) = s at hsetting
  refine ⟨s, _, hsetting, minifyText_eq_append hread style hsetting, ?_⟩
  intro hpiece margin
  have hmem : (tracker, token) ∈ (Reader.ofText source).log := by
    rw [hlog]
    simp
  obtain ⟨lexer, next, hnext, hsignificant⟩ := Reader.exists_next_of_mem_log hmem
  have hpieces : ∀ s ∈ plan read, s.piece ≠ [] := by
    apply piece_ne_nil_of_mem_settings
    intro token hmem
    exact (consecutive_tokens hread).1.text_ne_nil_of_mem (List.mem_filter.1 hmem).1
  apply Lexer.rereads_iff hnext hsignificant hkind
  · rw [hpiece, Lexer.setDown, Text.dropBytes_byteSize_append]
  · rw [← hpiece]
    apply page.setApart_behind
    · exact hpieces s (List.mem_of_getElem? hsetting)
    · intro other hother
      exact hpieces other (List.mem_of_mem_drop hother)

/-- The flags of this regular expression keep the next word away from it. -/
theorem regex_with_flags_rereads :
    minifyText "/a/g in b".toList .usual = .ok "/a/g in b".toList ∧
      (Lexer.setDown "/a/g in b".toList 0 .start).Rereads .regex
        ⟨.regex, "/a/g".toList, 0, false⟩ := by
  have hread : tokens "/a/g in b".toList = .ok
      [⟨.regex, "/a/g".toList, 0, false⟩, ⟨.blank, [' '], 4, false⟩,
        ⟨.keyword, "in".toList, 5, false⟩, ⟨.blank, [' '], 7, false⟩,
        ⟨.identifier, ['b'], 8, false⟩] :=
    eq_ok_of_toOption (by decide +kernel)
  have hlog : (Reader.ofText "/a/g in b".toList).log =
      [] ++ (.start, ⟨.regex, "/a/g".toList, 0, false⟩) ::
        (Reader.ofText "/a/g in b".toList).log.drop 1 := by decide +kernel
  have hminified : minifyText "/a/g in b".toList .usual = .ok "/a/g in b".toList :=
    eq_ok_of_toOption (by decide +kernel)
  obtain ⟨s, behind, hs, htext, hreread⟩ :=
    written_token_rereads_iff .usual hread hlog (by decide)
  obtain rfl : Draft.start.setting ⟨.regex, "/a/g".toList, 0, false⟩ (some "in".toList) = s :=
    Option.some.inj hs
  have hbehind : "/a/g".toList ++ behind = "/a/g in b".toList :=
    Except.ok.inj (htext.symm.trans hminified)
  obtain rfl : behind = " in b".toList := List.append_cancel_left hbehind
  exact ⟨hminified, (hreread rfl .start).2 (by decide)⟩

/-- A regular expression without flags takes the name of the operator behind it for its flags. -/
theorem regex_without_flags_merges :
    (Reader.ofText "/a/ instanceof RegExp".toList).log.head? =
        some (.start, ⟨.regex, "/a/".toList, 0, false⟩) ∧
      minifyText "/a/ instanceof RegExp".toList .usual = .ok "/a/instanceof RegExp".toList ∧
      ((Lexer.setDown "/a/instanceof RegExp".toList 0 .start).next .regex).1.toOption =
        some ⟨.regex, "/a/instanceof".toList, 0, false⟩ ∧
      ¬ (Lexer.setDown "/a/instanceof RegExp".toList 0 .start).Rereads Tracker.start.slash
        ⟨.regex, "/a/".toList, 0, false⟩ := by
  refine ⟨by decide +kernel, eq_ok_of_toOption (by decide +kernel), by decide +kernel, ?_⟩
  rintro ⟨again, after, hnext, htext, _⟩
  have hagain : ((Lexer.setDown "/a/instanceof RegExp".toList 0 .start).next
      Tracker.start.slash).1.toOption = some ⟨.regex, "/a/instanceof".toList, 0, false⟩ := by
    decide +kernel
  rw [hnext] at hagain
  obtain rfl := Option.some.inj hagain
  exact absurd htext (by decide)

end ScriptMinifier
