-- Each significant token of a script, with the place where the tracker meets it, with what lies
-- between it and the token before, and with the spot on the page where its piece is set.
import ScriptMinifier.Proofs.Rereading

namespace ScriptMinifier

open Character

/-! ## The place of each token -/

namespace Tracker

/-- The tracker that meets a token, which may stand on a new line. A break that counts has ended
the statement. -/
def meets (tracker : Tracker) (c : TokenClass) (followsBreak : Bool) : Tracker :=
  if followsBreak && tracker.breaksBefore c then tracker.endStatement else tracker

theorem read_eq_advance_meets (tracker : Tracker) (c : TokenClass) (followsBreak : Bool) :
    tracker.read c followsBreak = (tracker.meets c followsBreak).advance c := by
  unfold read meets
  split <;> rfl

/-- The tokens, each with the tracker before it. -/
def trace (tracker : Tracker) (previous : Option Token) : List Token → List (Tracker × Token)
  | [] => []
  | token :: rest =>
    (tracker, token) ::
      (tracker.read (token.classAfter previous) token.followsBreak).trace (some token) rest

theorem map_snd_trace (tracker : Tracker) (previous : Option Token) (tokens : List Token) :
    (tracker.trace previous tokens).map Prod.snd = tokens := by
  induction tokens generalizing tracker previous with
  | nil => rfl
  | cons token rest ih => rw [trace, List.map_cons, ih]

end Tracker

namespace Reader

/-- The trackers in the log of a reader follow from the tokens in it. -/
theorem log_eq_trace_map (reader : Reader) :
    reader.log = reader.tracker.trace reader.previous (reader.log.map Prod.snd) := by
  induction reader using turns with
  | failed reader error lexer hn =>
    rw [log_error hn]
    rfl
  | ended reader token lexer hn hk =>
    rw [log_end hn hk]
    rfl
  | turn reader token lexer hn hk ih =>
    rw [log_token hn hk]
    cases hs : token.isSignificant with
    | true =>
      simp only [after, hs, if_true] at ih ⊢
      rw [List.singleton_append, List.map_cons, Tracker.trace, ← ih]
    | false =>
      simp only [after, hs, Bool.false_eq_true, if_false, List.nil_append] at ih ⊢
      exact ih

theorem log_eq_trace {reader : Reader} {read : List Token}
    (h : reader.tokensFrom [] = .ok read) :
    reader.log = reader.tracker.trace reader.previous (read.filter Token.isSignificant) := by
  rw [← map_log h]
  exact log_eq_trace_map reader

/-- Every token of the log was read with the slash as its tracker says. -/
theorem exists_next_of_mem_log {reader : Reader} {entry : Tracker × Token}
    (h : entry ∈ reader.log) :
    ∃ lexer after : Lexer, lexer.next entry.1.slash = (.ok entry.2, after) ∧
      entry.2.isSignificant = true := by
  induction reader using turns with
  | failed reader error lexer hn =>
    rw [log_error hn] at h
    cases h
  | ended reader token lexer hn hk =>
    rw [log_end hn hk] at h
    cases h
  | turn reader token lexer hn hk ih =>
    rw [log_token hn hk] at h
    rcases List.mem_append.1 h with h | h
    · split at h
      · next hs =>
        obtain rfl := List.mem_singleton.1 h
        exact ⟨reader.lexer, lexer, hn, hs⟩
      · cases h
    · exact ih h

end Reader

/-! ## The setting of each token -/

theorem Draft.tracker_after (draft : Draft) (token : Token) (next : Option Text) :
    (draft.after token next).tracker =
      draft.tracker.read (draft.tokenClass token) token.followsBreak := by
  rw [Tracker.read_eq_advance_meets]
  rfl

/-- The plan of a token is made with the tracker that meets it. -/
theorem settings_of_trace {draft : Draft} {tokens : List Token}
    {before after : List (Tracker × Token)} {tracker : Tracker} {token : Token}
    (h : draft.tracker.trace draft.previous tokens = before ++ (tracker, token) :: after) :
    ∃ (first : List Setting) (here : Draft),
      settings draft tokens = first ++ settings here (token :: after.map Prod.snd) ∧
      first.length = before.length ∧ here.tracker = tracker ∧
      here.previous = (before.getLast?.map Prod.snd).or draft.previous := by
  induction before generalizing draft tokens with
  | nil =>
    cases tokens with
    | nil => cases h
    | cons other rest =>
      rw [Tracker.trace, List.nil_append] at h
      obtain ⟨hentry, hrest⟩ := List.cons.inj h
      obtain ⟨htracker, rfl⟩ := Prod.mk.inj hentry
      refine ⟨[], draft, ?_, rfl, htracker, rfl⟩
      rw [← hrest, Tracker.map_snd_trace, List.nil_append]
  | cons entry before ih =>
    cases tokens with
    | nil => cases h
    | cons other rest =>
      rw [Tracker.trace, List.cons_append] at h
      obtain ⟨rfl, hrest⟩ := List.cons.inj h
      have hdraft : (draft.after other (nextText rest)).tracker.trace
          (draft.after other (nextText rest)).previous rest =
            before ++ (tracker, token) :: after := by
        rw [Draft.tracker_after]
        exact hrest
      obtain ⟨first, here, hsettings, hlength, htracker, hprevious⟩ := ih hdraft
      refine ⟨draft.setting other (nextText rest) :: first, here, ?_, ?_, htracker, ?_⟩
      · rw [settings, hsettings, List.cons_append]
      · rw [List.length_cons, List.length_cons, hlength]
      · rw [hprevious, List.getLast?_cons]
        cases before.getLast? <;> rfl

/-- From one token of the log on, the plan is made of the settings that start with its tracker. -/
theorem plan_of_log {source : Text} {read : List Token} (hread : tokens source = .ok read)
    {before after : List (Tracker × Token)} {tracker : Tracker} {token : Token}
    (hlog : (Reader.ofText source).log = before ++ (tracker, token) :: after) :
    ∃ here : Draft, here.tracker = tracker ∧ here.previous = before.getLast?.map Prod.snd ∧
      ∀ i, (plan read)[before.length + i]? = (settings here (token :: after.map Prod.snd))[i]? := by
  have htrace : Draft.start.tracker.trace Draft.start.previous (read.filter Token.isSignificant) =
      before ++ (tracker, token) :: after := (Reader.log_eq_trace hread).symm.trans hlog
  obtain ⟨first, here, hplan, hlength, htracker, hprevious⟩ := settings_of_trace htrace
  refine ⟨here, htracker, ?_, fun i => ?_⟩
  · rw [hprevious]
    exact Option.or_none
  · rw [plan, hplan, ← hlength, List.getElem?_append_right (Nat.le_add_right _ _),
      Nat.add_sub_cancel_left]

/-! ## The spot on the page -/

/-- What the settings add to a page. -/
def Page.added (ownLine : Bool) (page : Page) : List Setting → Text
  | [] => []
  | s :: rest =>
    page.gapBefore s ++ (s.piece ++ (s.lineEnd ownLine ++ (page.lay ownLine s).added ownLine rest))

theorem text_foldl_lay_added (ownLine : Bool) (page : Page) (plan : List Setting) :
    (plan.foldl (Page.lay ownLine) page).text = page.text ++ page.added ownLine plan := by
  induction plan generalizing page with
  | nil => simp [Page.added]
  | cons s rest ih =>
    rw [List.foldl_cons, ih, Page.text_lay, Page.added]
    simp

theorem planned_take_succ (style : Style) {plan : List Setting} {n : Nat} {s : Setting}
    (hs : plan[n]? = some s) :
    planned style (plan.take (n + 1)) =
      (planned style (plan.take n)).lay style.statementsOnOwnLine s := by
  unfold planned
  rw [List.take_add_one, hs, List.foldl_append]
  rfl

/-- A minified script, cut at one of its pieces. -/
theorem minifyText_eq_append {source : Text} {read : List Token}
    (hread : tokens source = .ok read) (style : Style) {n : Nat} {s : Setting}
    (hs : (plan read)[n]? = some s) :
    let page := planned style ((plan read).take n)
    minifyText source style = .ok (page.text ++ page.gapBefore s ++ (s.piece ++
      (s.lineEnd style.statementsOnOwnLine ++ (page.lay style.statementsOnOwnLine s).added
        style.statementsOnOwnLine ((plan read).drop (n + 1))))) := by
  intro page
  have hcut : (planned style (plan read)).text =
      (page.lay style.statementsOnOwnLine s).text ++ (page.lay style.statementsOnOwnLine s).added
        style.statementsOnOwnLine ((plan read).drop (n + 1)) := by
    rw [← planned_take_succ style hs, ← text_foldl_lay_added]
    unfold planned
    rw [← List.foldl_append, List.take_append_drop]
  rw [minifyText_eq_map_planned, hread]
  show Except.ok (planned style (plan read)).text = _
  rw [hcut, Page.text_lay]
  simp

/-! ## The source between two tokens -/

theorem Consecutive.append {offset : Nat} {broken : Bool} {first later : List Token}
    (h : Consecutive offset broken (first ++ later)) :
    ∃ broken', Consecutive (offset + Text.byteSize (first.flatMap Token.text)) broken' later := by
  induction first generalizing offset broken with
  | nil => exact ⟨broken, h⟩
  | cons token first ih =>
    cases h with
    | cons _ _ _ _ hbehind =>
      obtain ⟨broken', hlater⟩ := ih hbehind
      refine ⟨broken', ?_⟩
      rw [List.flatMap_cons, Text.byteSize_append, ← Nat.add_assoc]
      exact hlater

/-- A significant token follows a break if a line ends between it and the significant token before
it. -/
theorem followsBreak_eq_any_slice {source : Text} {read before after : List Token}
    {previous token : Token} (hread : tokens source = .ok read)
    (htokens : read.filter Token.isSignificant = before ++ previous :: token :: after) :
    token.followsBreak =
      (Text.slice source previous.stop token.start).any isLineTerminator := by
  obtain ⟨hconsecutive, hspelled⟩ := consecutive_tokens hread
  obtain ⟨first, rest, rfl, _, hrest⟩ := List.filter_eq_append_iff.1 htokens
  obtain ⟨trivia, rest, rfl, _, hprevious, hrest⟩ := List.filter_eq_cons_iff.1 hrest
  obtain ⟨between, rest, rfl, hbetween, htoken, _⟩ := List.filter_eq_cons_iff.1 hrest
  obtain ⟨_, hconsecutive⟩ := hconsecutive.append
  obtain ⟨_, hconsecutive⟩ := hconsecutive.append
  cases hconsecutive with
  | cons hstart _ _ _ hbehind =>
    rw [hprevious, Bool.not_true, Bool.false_and] at hbehind
    cases hbehind.skip hbetween with
    | cons hnext _ _ hbreak _ =>
      have hstop : previous.stop =
          Text.byteSize ((first ++ trivia ++ [previous]).flatMap Token.text) := by
        unfold Token.stop
        rw [hstart]
        simp [Nat.add_assoc]
      have hsource : source = (first ++ trivia ++ [previous]).flatMap Token.text ++
          between.flatMap Token.text ++ (token :: rest).flatMap Token.text := by
        rw [← hspelled]
        simp
      rw [← hstart, show previous.start + Text.byteSize previous.text = previous.stop from rfl,
        hstop] at hnext
      rw [hbreak htoken, hsource, hnext, hstop, Text.slice_append, Bool.false_or]

end ScriptMinifier
