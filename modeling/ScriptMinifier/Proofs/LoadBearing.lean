-- Line breaks that bear meaning. The tracker looks at the line break before a token only where
-- the token would start a new statement there. So blanks and comments have a say in a minified
-- script through such breaks alone, and a minified script keeps each of them, adds none, and
-- leads the tracker through the same states.
import ScriptMinifier.Proofs.Breaks

namespace ScriptMinifier

open Character

/-! ## Tokens that differ in breaks without meaning -/

namespace Tracker

/-- The trackers that a run over the tokens goes through, from the first to the last. -/
def course (tracker : Tracker) (previous : Option Token) : List Token → List Tracker
  | [] => [tracker]
  | token :: rest =>
    tracker ::
      (tracker.read (token.classAfter previous) token.followsBreak).course (some token) rest

theorem map_fst_trace (tracker : Tracker) (previous : Option Token) (tokens : List Token) :
    (tracker.trace previous tokens).map Prod.fst = (tracker.course previous tokens).dropLast := by
  induction tokens generalizing tracker previous with
  | nil => rfl
  | cons token rest ih =>
    have hne : ∀ (tracker : Tracker) (previous : Option Token) (tokens : List Token),
        tracker.course previous tokens ≠ [] := by
      intro tracker previous tokens
      cases tokens <;> simp [course]
    rw [trace, List.map_cons, ih, course, List.dropLast_cons_of_ne_nil (hne _ _ _)]

/-- The tokens have the same texts and kinds, and breaks before the same of them wherever a break
matters to the tracker that runs over the first ones. -/
def Twins (tracker : Tracker) (previous : Option Token) : List Token → List Token → Prop
  | [], [] => True
  | token :: rest, twin :: twins =>
    twin.text = token.text ∧ twin.kind = token.kind ∧
      (tracker.breaksBefore (token.classAfter previous) = true →
        twin.followsBreak = token.followsBreak) ∧
      (tracker.read (token.classAfter previous) token.followsBreak).Twins (some token) rest twins
  | _, _ => False

/-- Tokens are twins if they are so at each place of a run. -/
theorem twins_of_trace {tracker : Tracker} {previous : Option Token} {tokens twins : List Token}
    (hsame : twins.map (fun token => (token.text, token.kind)) =
      tokens.map fun token => (token.text, token.kind))
    (hbreaks : ∀ (before after : List (Tracker × Token)) (here : Tracker) (token twin : Token),
      tracker.trace previous tokens = before ++ (here, token) :: after →
      here.breaksBefore (token.classAfter ((before.getLast?.map Prod.snd).or previous)) = true →
      twins[before.length]? = some twin → twin.followsBreak = token.followsBreak) :
    tracker.Twins previous tokens twins := by
  induction tokens generalizing tracker previous twins with
  | nil =>
    obtain rfl : twins = [] := by simpa using hsame
    trivial
  | cons token rest ih =>
    obtain ⟨twin, twins, rfl, hpair, hrest⟩ := List.map_eq_cons_iff.1 hsame
    obtain ⟨htext, hkind⟩ := Prod.mk.inj hpair
    refine ⟨htext, hkind, fun hmatters => ?_, ih hrest ?_⟩
    · exact hbreaks [] _ tracker token twin rfl (by simpa using hmatters) rfl
    · intro before after here other twin htrace hmatters htwin
      refine hbreaks ((tracker, token) :: before) after here other twin ?_ ?_ htwin
      · rw [trace, htrace, List.cons_append]
      · rw [List.getLast?_cons]
        cases hlast : before.getLast? with
        | none => simpa [hlast] using hmatters
        | some entry => simpa [hlast] using hmatters

theorem Twins.course {tracker : Tracker} {previous other : Option Token}
    {tokens twins : List Token} (h : tracker.Twins previous tokens twins)
    (hasks : other.any Token.asksForMember = previous.any Token.asksForMember) :
    tracker.course other twins = tracker.course previous tokens := by
  induction tokens generalizing tracker previous other twins with
  | nil =>
    cases twins with
    | nil => rfl
    | cons twin twins => exact h.elim
  | cons token rest ih =>
    cases twins with
    | nil => exact h.elim
    | cons twin twins =>
      obtain ⟨htext, hkind, hbreak, hrest⟩ := h
      have hclass : twin.classAfter other = token.classAfter previous := by
        unfold Token.classAfter Token.classOf
        rw [hkind, hasks, htext]
      have hread : tracker.read (twin.classAfter other) twin.followsBreak =
          tracker.read (token.classAfter previous) token.followsBreak := by
        rw [hclass]
        unfold read
        cases hmatters : tracker.breaksBefore (token.classAfter previous) with
        | true => rw [hbreak hmatters]
        | false => simp
      rw [Tracker.course, Tracker.course, hread, ih hrest]
      simp [Token.asksForMember, htext]

end Tracker

/-- Twins have the same plan. -/
theorem settings_of_twins {draft other : Draft} (h : draft.Like other) {tokens twins : List Token}
    (htwins : draft.tracker.Twins draft.previous tokens twins) :
    settings other twins = settings draft tokens := by
  induction tokens generalizing draft other twins with
  | nil =>
    cases twins with
    | nil => rfl
    | cons twin twins => exact htwins.elim
  | cons token rest ih =>
    cases twins with
    | nil => exact htwins.elim
    | cons twin twins =>
      obtain ⟨htext, hkind, hbreak, hrest⟩ := htwins
      have hnext : nextText twins = nextText rest := by
        cases rest with
        | nil =>
          cases twins with
          | nil => rfl
          | cons twin twins => exact hrest.elim
        | cons after rest =>
          cases twins with
          | nil => exact hrest.elim
          | cons twin twins => rw [nextText_cons, nextText_cons, hrest.1]
      have hkept : (twin.followsBreak && draft.breakMatters token) = draft.breakKept token := by
        unfold Draft.breakKept
        cases hmatters : draft.breakMatters token with
        | true => rw [hbreak hmatters]
        | false => simp
      obtain ⟨hsetting, hlike⟩ := h.setting htext (by rw [hkind])
        (by rw [hnext] : (nextText twins).any bindsTighter = (nextText rest).any bindsTighter) hkept
      rw [settings, settings, hsetting, ih hlike]
      rw [Draft.tracker_after]
      exact hrest

/-! ## Blanks and comments -/

/-- Two scripts with the same significant tokens, and with breaks before the same of them wherever
a break matters to the tracker on the first script, are minified to the same script. -/
theorem minified_scripts_agree {source other : Text} {read again : List Token}
    (hread : tokens source = .ok read) (hagain : tokens other = .ok again)
    (hsame : (again.filter Token.isSignificant).map (fun token => (token.text, token.kind)) =
      (read.filter Token.isSignificant).map fun token => (token.text, token.kind))
    (hbreaks : ∀ (before after : List (Tracker × Token)) (tracker : Tracker) (token twin : Token),
      (Reader.ofText source).log = before ++ (tracker, token) :: after →
      tracker.breaksBefore (token.classAfter (before.getLast?.map Prod.snd)) = true →
      (again.filter Token.isSignificant)[before.length]? = some twin →
      twin.followsBreak = token.followsBreak)
    (style : Style) : minifyText source style = minifyText other style := by
  have htwins : Tracker.start.Twins none (read.filter Token.isSignificant)
      (again.filter Token.isSignificant) := by
    refine Tracker.twins_of_trace hsame fun before after here token twin htrace => ?_
    rw [Option.or_none]
    exact hbreaks before after here token twin ((Reader.log_eq_trace hread).trans htrace)
  have hplan : plan again = plan read := settings_of_twins ⟨rfl, rfl, rfl⟩ htwins
  rw [minifyText_eq_map_planned, minifyText_eq_map_planned, hread, hagain]
  simp only [Except.map, hplan]

/-- A comment takes the place of one break, and both scripts are minified to the same one. -/
theorem comment_in_place_of_a_break :
    minifyText "a\n+b\nc".toList ⟨4, false⟩ = minifyText "a + b // x\nc".toList ⟨4, false⟩ ∧
      minifyText "a\n+b\nc".toList ⟨4, false⟩ = .ok "a+b\nc".toList := by
  have hread : tokens "a\n+b\nc".toList = .ok
      [⟨.identifier, ['a'], 0, false⟩, ⟨.lineBreak, ['\n'], 1, false⟩,
        ⟨.punctuator, ['+'], 2, true⟩, ⟨.identifier, ['b'], 3, false⟩,
        ⟨.lineBreak, ['\n'], 4, false⟩, ⟨.identifier, ['c'], 5, true⟩] :=
    eq_ok_of_toOption (by decide +kernel)
  have hagain : tokens "a + b // x\nc".toList = .ok
      [⟨.identifier, ['a'], 0, false⟩, ⟨.blank, [' '], 1, false⟩,
        ⟨.punctuator, ['+'], 2, false⟩, ⟨.blank, [' '], 3, false⟩, ⟨.identifier, ['b'], 4, false⟩,
        ⟨.blank, [' '], 5, false⟩, ⟨.lineComment, "// x".toList, 6, false⟩,
        ⟨.lineBreak, ['\n'], 10, false⟩, ⟨.identifier, ['c'], 11, true⟩] :=
    eq_ok_of_toOption (by decide +kernel)
  have hlog : (Reader.ofText "a\n+b\nc".toList).log =
      [(.start, ⟨.identifier, ['a'], 0, false⟩),
        (⟨.expression .plain .operator, []⟩, ⟨.punctuator, ['+'], 2, true⟩),
        (⟨.expression .plain .operand, []⟩, ⟨.identifier, ['b'], 3, false⟩),
        (⟨.expression .plain .operator, []⟩, ⟨.identifier, ['c'], 5, true⟩)] := by
    decide +kernel
  refine ⟨minified_scripts_agree hread hagain rfl ?_ _, eq_ok_of_toOption (by decide +kernel)⟩
  intro before after tracker token twin hsplit hmatters htwin
  rw [hlog] at hsplit
  -- A break matters only before the last token.
  rcases before with _ | ⟨first, _ | ⟨second, _ | ⟨third, _ | ⟨fourth, before⟩⟩⟩⟩
  · cases hsplit
    cases hmatters
  · cases hsplit
    cases hmatters
  · cases hsplit
    cases hmatters
  · cases hsplit
    cases htwin
    rfl
  · cases before <;> cases hsplit

/-! ## Breaks in a minified script -/

/-- In a style without lines of their own, the gap before a piece is what the page puts there. -/
theorem getElem?_gaps (page : Page) {plan : List Setting} {n : Nat} {s : Setting}
    (hs : plan[n]? = some s) :
    (gaps false page [] plan)[n]? =
      some (((plan.take n).foldl (Page.lay false) page).gapBefore s) := by
  induction plan generalizing page n with
  | nil => cases hs
  | cons first rest ih =>
    cases n with
    | zero =>
      obtain rfl := Option.some.inj hs
      rfl
    | succ n => exact ih (page.lay false first) hs

/-- The token as it is read again behind the given gap. -/
def Token.behindGap (token : Token) (gap : Text) : Token :=
  { token with followsBreak := gap.contains '\n' }

/-- A break that matters is in the gap before a piece if and only if it was there before. -/
theorem Page.newline_mem_gapBefore_setting (page : Page) {draft : Draft} {token : Token}
    (h : draft.breakMatters token = true) (next : Option Text) :
    '\n' ∈ page.gapBefore (draft.setting token next) ↔ token.followsBreak = true := by
  have hmatters : (draft.setting token next).breakMatters = true := h
  have hkept : (draft.setting token next).breakKept = token.followsBreak := by
    show (token.followsBreak && draft.breakMatters token) = token.followsBreak
    rw [h, Bool.and_true]
  rw [page.newline_mem_gapBefore_iff fun _ => hmatters, hmatters, hkept]
  simp

/-- The tokens that are read again behind their gaps are twins of those that were written. -/
theorem twins_behindGap (draft : Draft) (page : Page) (tokens : List Token) :
    draft.tracker.Twins draft.previous tokens
      (List.zipWith Token.behindGap tokens (gaps false page [] (settings draft tokens))) := by
  induction tokens generalizing draft page with
  | nil => trivial
  | cons token rest ih =>
    refine ⟨rfl, rfl, fun hmatters => ?_, ?_⟩
    · rw [Bool.eq_iff_iff]
      simpa [Token.behindGap] using
        page.newline_mem_gapBefore_setting hmatters (nextText rest)
    · have hrest := ih (draft.after token (nextText rest))
        (page.lay false (draft.setting token (nextText rest)))
      rw [Draft.tracker_after] at hrest
      exact hrest

/-- Where a break matters before a token, it follows one if a line ends in the source between the
significant token before it and this one. -/
theorem followsBreak_of_log {source : Text} {read : List Token} (hread : tokens source = .ok read)
    {before after : List (Tracker × Token)} {tracker : Tracker} {token : Token}
    (hlog : (Reader.ofText source).log = before ++ (tracker, token) :: after)
    (hmatters : tracker.breaksBefore (token.classAfter (before.getLast?.map Prod.snd)) = true) :
    token.followsBreak = (Text.slice source
      (((before.getLast?.map Prod.snd).map Token.stop).getD 0) token.start).any
        isLineTerminator := by
  rcases List.eq_nil_or_concat before with rfl | ⟨first, ⟨_, previous⟩, rfl⟩
  · -- The first token starts a statement, where no break matters.
    have hstart : tracker = .start := by
      have htrace := (Reader.log_eq_trace hread).symm.trans hlog
      cases hread : read.filter Token.isSignificant with
      | nil =>
        rw [hread] at htrace
        cases htrace
      | cons first rest =>
        rw [hread] at htrace
        exact (congrArg Prod.fst (List.cons.inj htrace).1).symm
    rw [hstart] at hmatters
    cases hmatters
  · have htokens : read.filter Token.isSignificant =
        first.map Prod.snd ++ previous :: token :: after.map Prod.snd := by
      rw [← Reader.map_log hread]
      exact (congrArg (List.map Prod.snd) hlog).trans (by simp)
    rw [followsBreak_eq_any_slice hread htokens]
    simp

section

variable {source : Text} {read : List Token} {limit : Nat} {before after : List (Tracker × Token)}
  {tracker : Tracker} {token : Token} {gap : Text}

/-- The gap before a token is made with the tracker that meets it. -/
theorem exists_setting_of_gap (hread : tokens source = .ok read)
    (hlog : (Reader.ofText source).log = before ++ (tracker, token) :: after)
    (hgap : (gaps false (.blank limit) [] (plan read))[before.length]? = some gap) :
    ∃ (page : Page) (here : Draft) (next : Option Text),
      gap = page.gapBefore (here.setting token next) ∧
      here.tokenClass token = token.classAfter (before.getLast?.map Prod.snd) ∧
      here.breakMatters token =
        tracker.breaksBefore (token.classAfter (before.getLast?.map Prod.snd)) := by
  obtain ⟨here, htracker, hprevious, hplan⟩ := plan_of_log hread hlog
  have hsetting : (plan read)[before.length]? =
      some (here.setting token (nextText (after.map Prod.snd))) := hplan 0
  rw [getElem?_gaps _ hsetting] at hgap
  have hclass : here.tokenClass token = token.classAfter (before.getLast?.map Prod.snd) := by
    unfold Draft.tokenClass
    rw [hprevious]
  refine ⟨_, here, _, (Option.some.inj hgap).symm, hclass, ?_⟩
  unfold Draft.breakMatters
  rw [htracker, hclass]

theorem newline_mem_gap_of_matters (hread : tokens source = .ok read)
    (hlog : (Reader.ofText source).log = before ++ (tracker, token) :: after)
    (hgap : (gaps false (.blank limit) [] (plan read))[before.length]? = some gap)
    (hmatters : tracker.breaksBefore (token.classAfter (before.getLast?.map Prod.snd)) = true) :
    '\n' ∈ gap ↔ token.followsBreak = true := by
  obtain ⟨page, here, next, rfl, _, hbreaks⟩ := exists_setting_of_gap hread hlog hgap
  exact page.newline_mem_gapBefore_setting (hbreaks.trans hmatters) next

theorem newline_not_mem_gap (hread : tokens source = .ok read)
    (hlog : (Reader.ofText source).log = before ++ (tracker, token) :: after)
    (hgap : (gaps false (.blank limit) [] (plan read))[before.length]? = some gap)
    (hmatters : tracker.breaksBefore (token.classAfter (before.getLast?.map Prod.snd)) = false)
    (hc : token.classAfter (before.getLast?.map Prod.snd) = .increment ∨
      token.classAfter (before.getLast?.map Prod.snd) = .arrow) : '\n' ∉ gap := by
  obtain ⟨page, here, next, rfl, hclass, hbreaks⟩ := exists_setting_of_gap hread hlog hgap
  have hfalse : (here.setting token next).breakMatters = false := hbreaks.trans hmatters
  have hkept : (here.setting token next).breakKept = true →
      (here.setting token next).breakMatters = true := fun h => (Bool.and_eq_true_iff.1 h).2
  rw [page.newline_mem_gapBefore_iff hkept, hfalse, if_neg (by decide)]
  rintro ⟨_, hincrement, harrow⟩
  rcases hc with hc | hc
  · exact hincrement (hclass.trans hc)
  · exact harrow (hclass.trans hc)

end

/-- In a style without lines of their own, a minified script has a break before a token where
breaks matter if and only if the source has one, and never a break before `++`, `--` or `=>` where
they do not. A tracker that runs over the tokens with the breaks of the minified script goes through
the same states. -/
theorem breaks_that_matter_are_kept {source : Text} {read : List Token} {style : Style}
    (hstyle : style.statementsOnOwnLine = false) (hread : tokens source = .ok read) :
    ∃ pieces gaps : List Text,
      List.Forall₂ (fun (token : Token) piece => piece = token.text ∨
        token.text = "true".toList ∧ piece = "!0".toList ∨
        token.text = "false".toList ∧ piece = "!1".toList)
        (read.filter Token.isSignificant) pieces ∧
      minifyText source style = .ok (interleave gaps pieces) ∧
      gaps.length = pieces.length + 1 ∧
      (∀ gap ∈ gaps, gap = [] ∨ gap = [' '] ∨ gap = ['\n']) ∧
      (∀ (before after : List (Tracker × Token)) (tracker : Tracker) (token : Token) (gap : Text),
        (Reader.ofText source).log = before ++ (tracker, token) :: after →
        gaps[before.length]? = some gap →
        let previous := before.getLast?.map Prod.snd
        let c := token.classAfter previous
        if tracker.breaksBefore c then
          '\n' ∈ gap ↔ (Text.slice source ((previous.map Token.stop).getD 0) token.start).any
            isLineTerminator = true
        else c = .increment ∨ c = .arrow → '\n' ∉ gap) ∧
      (Reader.ofText source).log.map Prod.fst =
        (Tracker.start.course none (read.filter Token.isSignificant)).dropLast ∧
      Tracker.start.course none
          (List.zipWith Token.behindGap (read.filter Token.isSignificant) gaps) =
        Tracker.start.course none (read.filter Token.isSignificant) := by
  have hfit := gapsFit_settings false .start (.blank style.maxLineLength) none [] (Or.inl rfl)
    (read.filter Token.isSignificant)
  refine ⟨(plan read).map Setting.piece, gaps false (.blank style.maxLineLength) [] (plan read),
    forall₂_settings _ _, ?_, hfit.length, ?_, ?_, ?_, ?_⟩
  · rw [minifyText_eq_map_planned, hread]
    show Except.ok (planned style (plan read)).text = _
    rw [planned, hstyle, text_foldl_lay false (.blank style.maxLineLength) [] [] (plan read) rfl]
    rfl
  · intro gap hgap
    simpa using hfit.mem gap hgap
  · intro before after tracker token gap hlog hgap previous c
    cases hmatters : tracker.breaksBefore c with
    | true =>
      rw [if_pos rfl, newline_mem_gap_of_matters hread hlog hgap hmatters]
      rw [followsBreak_of_log hread hlog hmatters]
    | false =>
      rw [if_neg (by decide)]
      exact newline_not_mem_gap hread hlog hgap hmatters
  · rw [← Tracker.map_fst_trace]
    exact congrArg (List.map Prod.fst) (Reader.log_eq_trace hread)
  · exact (twins_behindGap .start (.blank style.maxLineLength) _).course rfl

/-- On lines of four characters `a xyz` would need no break, so the break in it is kept for what it
means. The arrow does not fit behind that, and still none is put before it. -/
theorem break_is_kept_and_none_added_before_an_arrow :
    minifyText "a xyz".toList ⟨4, false⟩ = .ok "a xyz".toList ∧
    ∃ (pieces gaps : List Text) (first second : Text), pieces.length = 4 ∧
      minifyText "a\nxyz\n=>y".toList ⟨4, false⟩ = .ok (interleave gaps pieces) ∧
      gaps[1]? = some first ∧ '\n' ∈ first ∧ gaps[2]? = some second ∧ '\n' ∉ second := by
  have hread : tokens "a\nxyz\n=>y".toList = .ok
      [⟨.identifier, ['a'], 0, false⟩, ⟨.lineBreak, ['\n'], 1, false⟩,
        ⟨.identifier, ['x', 'y', 'z'], 2, true⟩, ⟨.lineBreak, ['\n'], 5, false⟩,
        ⟨.punctuator, ['=', '>'], 6, true⟩, ⟨.identifier, ['y'], 8, false⟩] :=
    eq_ok_of_toOption (by decide +kernel)
  have hlog : (Reader.ofText "a\nxyz\n=>y".toList).log =
      [(.start, ⟨.identifier, ['a'], 0, false⟩),
        (⟨.expression .plain .operator, []⟩, ⟨.identifier, ['x', 'y', 'z'], 2, true⟩),
        (⟨.expression .plain .operator, []⟩, ⟨.punctuator, ['=', '>'], 6, true⟩),
        (⟨.expression .plain .arrow, []⟩, ⟨.identifier, ['y'], 8, false⟩)] := by
    decide +kernel
  have hfits : minifyText "a xyz".toList ⟨4, false⟩ = .ok "a xyz".toList :=
    eq_ok_of_toOption (by decide +kernel)
  obtain ⟨pieces, gaps, hpieces, hminified, hlength, _, hbreaks, _⟩ :=
    breaks_that_matter_are_kept (rfl : (Style.mk 4 false).statementsOnOwnLine = false) hread
  have hfour : pieces.length = 4 := hpieces.length_eq.symm
  obtain ⟨first, hfirst⟩ : ∃ first, gaps[1]? = some first :=
    ⟨_, List.getElem?_eq_getElem (by omega)⟩
  obtain ⟨second, hsecond⟩ : ∃ second, gaps[2]? = some second :=
    ⟨_, List.getElem?_eq_getElem (by omega)⟩
  have hkept := hbreaks [_] _ _ _ first hlog hfirst
  have hnone := hbreaks [_, _] _ _ _ second hlog hsecond
  exact ⟨hfits, pieces, gaps, first, second, hfour, hminified, hfirst,
    hkept.2 (by decide +kernel), hsecond, hnone (Or.inr (by decide))⟩

end ScriptMinifier
