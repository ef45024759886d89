-- Minifying what is minified already. A page whose text is read back as the tokens that were
-- written on it has the same plan as the script it was made from, up to the short spellings,
-- which are read back as two tokens. So a second run lays out the script as if it had been the
-- first one.
import ScriptMinifier.Proofs.Gaps
import ScriptMinifier.Proofs.Tokens

namespace ScriptMinifier

open Character

/-! ## What was written, and where -/

/-- The tokens that a piece should be read back as, each with the gap before it. A short spelling
is two tokens. -/
def Setting.parts (s : Setting) (gap : Text) : List (Text × Text) :=
  if s.piece = s.full then [(gap, s.piece)] else [(gap, s.piece.take 1), ([], s.piece.drop 1)]

theorem Setting.parts_of_eq {s : Setting} (h : s.piece = s.full) (gap : Text) :
    s.parts gap = [(gap, s.piece)] := if_pos h

theorem Setting.parts_of_ne {s : Setting} (h : s.piece ≠ s.full) (gap : Text) :
    s.parts gap = [(gap, s.piece.take 1), ([], s.piece.drop 1)] := if_neg h

/-- The tokens that the pieces of a plan should be read back as, once they are laid on a page. -/
def Page.parts (page : Page) : List Setting → List (Text × Text)
  | [] => []
  | s :: rest => s.parts (page.gapBefore s) ++ (page.lay false s).parts rest

/-- The byte offsets of the tokens, with their texts. -/
def footprint (offset : Nat) : List (Text × Text) → List (Nat × Text)
  | [] => []
  | (gap, text) :: rest =>
    (offset + Text.byteSize gap, text) ::
      footprint (offset + Text.byteSize gap + Text.byteSize text) rest

theorem text_foldl_lay_parts (page : Page) (plan : List Setting) :
    (plan.foldl (Page.lay false) page).text =
      page.text ++ (page.parts plan).flatMap fun part => part.1 ++ part.2 := by
  induction plan generalizing page with
  | nil => simp [Page.parts]
  | cons s rest ih =>
    have hparts : (s.parts (page.gapBefore s)).flatMap (fun part => part.1 ++ part.2) =
        page.gapBefore s ++ s.piece := by
      by_cases hpiece : s.piece = s.full
      · simp [Setting.parts_of_eq hpiece]
      · rw [Setting.parts_of_ne hpiece]
        simp only [List.flatMap_cons, List.flatMap_nil, List.append_nil, List.nil_append]
        rw [List.append_assoc, List.take_append_drop]
    rw [List.foldl_cons, ih, Page.text_lay, Page.parts, List.flatMap_append, hparts]
    simp [Setting.lineEnd]

/-! ## Reading it back -/

/-- The token is what a part should be read back as. -/
structure Token.IsPart (part : Text × Text) (token : Token) : Prop where
  text : token.text = part.2
  followsBreak : token.followsBreak = part.1.any isLineTerminator
  word : token.kind.isWord = part.2.head?.any Lexeme.startsWord

/-- Two parts of one text that take up the same bytes are the same. -/
theorem Text.append_inj_of_byteSize {a b x y : Text} (h : a ++ x = b ++ y)
    (hsize : byteSize a = byteSize b) : a = b ∧ x = y := by
  have ha := takeBytes_byteSize_append a x
  have hx := dropBytes_byteSize_append a x
  rw [h, hsize, takeBytes_byteSize_append] at ha
  rw [h, hsize, dropBytes_byteSize_append] at hx
  exact ⟨ha.symm, hx.symm⟩

namespace Consecutive

/-- Blanks and comments only move the offset, and may end a line. -/
theorem skip {offset : Nat} {broken : Bool} {trivia rest : List Token}
    (h : Consecutive offset broken (trivia ++ rest))
    (hs : ∀ token ∈ trivia, ¬ token.isSignificant = true) :
    Consecutive (offset + Text.byteSize (trivia.flatMap Token.text))
      (broken || (trivia.flatMap Token.text).any isLineTerminator) rest := by
  induction trivia generalizing offset broken with
  | nil => simpa using h
  | cons token trivia ih =>
    obtain ⟨htoken, htrivia⟩ := List.forall_mem_cons.1 hs
    rw [List.cons_append] at h
    cases h with
    | cons hstart hfilled hword hbreak hbehind =>
      have := ih hbehind htrivia
      simpa [htoken, Nat.add_assoc, Bool.or_assoc] using this

/-- Significant tokens that stand where the parts were written are read back from them. The line
breaks before a token are those in its gap. -/
theorem forall₂_isPart {offset : Nat} {read : List Token} {parts : List (Text × Text)}
    (h : Consecutive offset false read)
    (hspelled : read.flatMap Token.text = parts.flatMap fun part => part.1 ++ part.2)
    (hplaces : (read.filter Token.isSignificant).map (fun token => (token.start, token.text)) =
      footprint offset parts) :
    List.Forall₂ Token.IsPart parts (read.filter Token.isSignificant) := by
  induction parts generalizing offset read with
  | nil =>
    have hnil : read.filter Token.isSignificant = [] := by simpa [footprint] using hplaces
    rw [hnil]
    exact .nil
  | cons part parts ih =>
    obtain ⟨gap, text⟩ := part
    obtain ⟨token, rest, hfilter, hplace, hrest⟩ := List.map_eq_cons_iff.1 hplaces
    obtain ⟨hstart, htext⟩ := Prod.mk.inj hplace
    obtain ⟨trivia, behind, rfl, htrivia, hs, hbehind⟩ := List.filter_eq_cons_iff.1 hfilter
    cases h.skip htrivia with
    | cons hoffset hfilled hword hbreak hnext =>
      -- What lies before the token has the size of the gap, so it is the gap.
      have hsize : Text.byteSize (trivia.flatMap Token.text) = Text.byteSize gap := by omega
      simp only [List.flatMap_append, List.flatMap_cons, List.append_assoc] at hspelled
      obtain ⟨hgap, hspelled⟩ := Text.append_inj_of_byteSize hspelled hsize
      rw [htext] at hspelled
      have hspelled := List.append_cancel_left hspelled
      rw [hgap, Bool.false_or] at hbreak
      rw [hgap, htext, hs, Bool.not_true, Bool.false_and] at hnext
      rw [hfilter, ← hbehind]
      refine .cons ⟨htext, hbreak hs, ?_⟩ ?_
      · rw [← htext]
        exact hword hs
      · refine ih hnext hspelled ?_
        rw [hbehind]
        exact hrest

end Consecutive

/-! ## The plan of what is read back -/

/-- The settings of the tokens that a piece is read back as. -/
def Setting.reread (s : Setting) : List Setting :=
  if s.piece = s.full then [s]
  else
    [⟨s.piece.take 1, s.piece.take 1, .unary, false, false, false⟩,
      ⟨s.piece.drop 1, s.piece.drop 1, .literal, false, false, false⟩]

theorem Setting.reread_of_eq {s : Setting} (h : s.piece = s.full) : s.reread = [s] := if_pos h

theorem Setting.reread_of_ne {s : Setting} (h : s.piece ≠ s.full) :
    s.reread =
      [⟨s.piece.take 1, s.piece.take 1, .unary, false, false, false⟩,
        ⟨s.piece.drop 1, s.piece.drop 1, .literal, false, false, false⟩] := if_neg h

/-- A break that matters stands before a piece only if it was kept. -/
theorem Page.gapBefore_matters (page : Page) {s : Setting}
    (h : s.breakKept = true → s.breakMatters = true) :
    ((page.gapBefore s).any isLineTerminator && s.breakMatters) = s.breakKept := by
  unfold gapBefore
  by_cases hkept : s.breakKept = true
  · have hmatters := h hkept
    simp [hkept, hmatters, isLineTerminator]
  · by_cases hmatters : s.breakMatters = true
    · simp only [hkept, hmatters, Bool.false_eq_true, if_false, Bool.not_true, Bool.and_false,
        Bool.false_and, Bool.and_true]
      split <;> simp [isLineTerminator]
    · simp [hkept, hmatters]

namespace Draft

/-- Both drafts decide the same about the tokens to come. -/
structure Like (draft other : Draft) : Prop where
  tracker : other.tracker = draft.tracker
  last : other.last = draft.last
  asks : other.previous.any Token.asksForMember = draft.previous.any Token.asksForMember

/-- A short spelling is used for a `true` or `false` where an operand is awaited. -/
structure Shortens (draft : Draft) (token : Token) (next : Option Text) : Prop where
  tokenClass : draft.tokenClass token = .literal
  place : ∃ scope, draft.tracker.place = .expression scope .operand
  text : token.text = "true".toList ∨ token.text = "false".toList
  piece : ∃ digit, (digit = '0' ∨ digit = '1') ∧ draft.piece token next = ['!', digit]

theorem shortens_of_piece_ne {draft : Draft} {token : Token} {next : Option Text}
    (h : draft.piece token next ≠ token.text) : draft.Shortens token next := by
  have hcases := (draft.piece_cases token next).resolve_left h
  unfold piece spelling at h
  cases hshort : shortened? token.text (draft.tokenClass token) (draft.opened token).place
      draft.last with
  | none => simp [hshort] at h
  | some short =>
    unfold shortened? at hshort
    split at hshort
    · next hplace =>
      obtain ⟨hclass, _, hplace⟩ := hplace
      refine ⟨hclass, ?_, ?_, ?_⟩
      · -- A break that is kept ends the statement, and no operand is awaited then.
        unfold opened at hplace
        split at hplace
        · simp [Tracker.endStatement] at hplace
        · rcases hplace with hplace | hplace
          · exact ⟨_, hplace⟩
          · exact ⟨_, hplace⟩
      · rcases hcases with ⟨htext, _⟩ | ⟨htext, _⟩
        · exact Or.inl htext
        · exact Or.inr htext
      · rcases hcases with ⟨_, hpiece⟩ | ⟨_, hpiece⟩
        · exact ⟨'0', Or.inl rfl, hpiece⟩
        · exact ⟨'1', Or.inr rfl, hpiece⟩
    · cases hshort

theorem breakMatters_of_operand {draft : Draft} {scope : Scope}
    (h : draft.tracker.place = .expression scope .operand) (token : Token) :
    draft.breakMatters token = false := by
  unfold breakMatters Tracker.breaksBefore
  rw [h]
  cases scope <;> rfl

theorem tokenClass_of_not_word (draft : Draft) {token : Token} (h : token.kind.isWord = false) :
    draft.tokenClass token = TokenClass.ofText token.text := by
  simp [tokenClass, Token.classAfter, h, Token.classOf]

variable {draft other : Draft} {token again : Token} {next nextAgain : Option Text}

/-- A token that is read back as it was written has the same setting again. -/
theorem Like.setting (h : draft.Like other) (htext : again.text = token.text)
    (hword : again.kind.isWord = token.kind.isWord)
    (hnext : nextAgain.any bindsTighter = next.any bindsTighter)
    (hkept : (again.followsBreak && draft.breakMatters token) = draft.breakKept token) :
    other.setting again nextAgain = draft.setting token next ∧
      (draft.after token next).Like (other.after again nextAgain) := by
  have hclass : other.tokenClass again = draft.tokenClass token := by
    unfold tokenClass Token.classAfter Token.classOf
    rw [hword, h.asks, htext]
  have hmatters : other.breakMatters again = draft.breakMatters token := by
    unfold breakMatters
    rw [h.tracker, hclass]
  have hkept : other.breakKept again = draft.breakKept token := by
    rw [← hkept, ← hmatters]
    rfl
  have hopened : other.opened again = draft.opened token := by
    unfold opened
    rw [hkept, h.tracker]
  have hpiece : other.piece again nextAgain = draft.piece token next := by
    unfold piece spelling
    rw [htext, hclass, hopened, h.last, hnext]
  have htracker : (other.after again nextAgain).tracker = (draft.after token next).tracker := by
    unfold after
    rw [hopened, hclass]
  refine ⟨?_, htracker, ?_, ?_⟩
  · unfold Draft.setting
    rw [htracker, htext, hpiece, hclass, hkept, hmatters, hopened]
  · unfold after
    rw [hpiece, h.last]
  · simp [after, Token.asksForMember, htext]

theorem breakKept_of_operand {scope : Scope}
    (h : draft.tracker.place = .expression scope .operand) (token : Token) :
    draft.breakKept token = false := by
  unfold breakKept
  rw [breakMatters_of_operand h, Bool.and_false]

theorem opened_of_operand {scope : Scope}
    (h : draft.tracker.place = .expression scope .operand) (token : Token) :
    draft.opened token = draft.tracker := by
  unfold opened
  rw [breakKept_of_operand h]
  rfl

/-- A token that is not a word is written as it is. -/
theorem piece_of_not_word (h : token.text.head?.any Lexeme.startsWord = false) :
    draft.piece token next = token.text := by
  rcases draft.piece_cases token next with hpiece | ⟨htext, _⟩ | ⟨htext, _⟩
  · exact hpiece
  · rw [htext] at h
    exact absurd h (by decide)
  · rw [htext] at h
    exact absurd h (by decide)

/-- The sign of a short spelling leaves the draft where an operand is awaited. -/
theorem setting_sign (draft : Draft) (next : Option Text) {scope : Scope}
    (hplace : draft.tracker.place = .expression scope .operand)
    (htext : token.text = ['!']) (hword : token.kind.isWord = false) :
    draft.setting token next = ⟨['!'], ['!'], .unary, false, false, false⟩ ∧
      draft.after token next = ⟨draft.tracker, some token, '!'⟩ := by
  have hclass : draft.tokenClass token = .unary := by
    rw [tokenClass_of_not_word draft hword, htext]
    decide
  have hpiece : draft.piece token next = ['!'] := by
    rw [piece_of_not_word (by rw [htext]; decide), htext]
  have hafter : draft.after token next = ⟨draft.tracker, some token, '!'⟩ := by
    obtain ⟨⟨place, stack⟩, previous, last⟩ := draft
    dsimp only at hplace
    subst hplace
    unfold after
    rw [hpiece, hclass, opened_of_operand rfl, Tracker.advance_of_inert] <;> cases scope <;> rfl
  refine ⟨?_, hafter⟩
  unfold setting
  rw [hafter, hpiece, hclass, opened_of_operand hplace, breakKept_of_operand hplace,
    breakMatters_of_operand hplace, htext, hplace]
  cases scope <;> rfl

/-- The digit of a short spelling is an operand. -/
theorem setting_digit (draft : Draft) (next : Option Text) {scope : Scope}
    (hplace : draft.tracker.place = .expression scope .operand)
    {d : Char} (hd : d = '0' ∨ d = '1') (htext : token.text = [d])
    (hword : token.kind.isWord = false) :
    draft.setting token next = ⟨[d], [d], .literal, false, false, false⟩ ∧
      draft.after token next = ⟨draft.tracker.advance .literal, some token, d⟩ := by
  have hclass : draft.tokenClass token = .literal := by
    rw [tokenClass_of_not_word draft hword, htext]
    rcases hd with rfl | rfl <;> decide
  have hpiece : draft.piece token next = [d] := by
    rw [piece_of_not_word (by rw [htext]; rcases hd with rfl | rfl <;> decide), htext]
  have hafter : draft.after token next = ⟨draft.tracker.advance .literal, some token, d⟩ := by
    unfold after
    rw [hpiece, hclass, opened_of_operand hplace]
    rfl
  refine ⟨?_, hafter⟩
  unfold setting
  rw [hafter, hpiece, hclass, opened_of_operand hplace, breakKept_of_operand hplace,
    breakMatters_of_operand hplace, htext, Writer.endsLine_literal]

/-- A short spelling that is read back as two tokens leads to where the word has led for which it
was written. -/
theorem Like.settings_short (h : draft.Like other) (hne : draft.piece token next ≠ token.text)
    {digit : Token} (hsign : again.text = (draft.piece token next).take 1)
    (hdigit : digit.text = (draft.piece token next).drop 1)
    (hword : again.kind.isWord = false) (hword' : digit.kind.isWord = false) :
    [other.setting again (some digit.text),
        (other.after again (some digit.text)).setting digit nextAgain] =
        (draft.setting token next).reread ∧
      (draft.after token next).Like
        ((other.after again (some digit.text)).after digit nextAgain) := by
  have hshortens := shortens_of_piece_ne hne
  obtain ⟨scope, hplace⟩ := hshortens.place
  obtain ⟨d, hd, hpiece⟩ := hshortens.piece
  have hsilent : token.asksForMember = false := by
    unfold Token.asksForMember
    rcases hshortens.text with htext | htext <;> rw [htext] <;> decide
  rw [hpiece] at hsign hdigit
  have hplaceOther : other.tracker.place = .expression scope .operand := by
    rw [h.tracker, hplace]
  obtain ⟨hsetting, hafter⟩ := setting_sign other (some digit.text) hplaceOther hsign hword
  obtain ⟨hsetting', hafter'⟩ :=
    setting_digit ⟨other.tracker, some again, '!'⟩ nextAgain hplaceOther hd hdigit hword'
  rw [hafter, hafter', hsetting, hsetting']
  refine ⟨?_, ?_, ?_, ?_⟩
  · rw [Setting.reread_of_ne hne, piece_setting, hpiece]
    rfl
  · rw [h.tracker]
    unfold after
    rw [hshortens.tokenClass, opened_of_operand hplace]
  · unfold after
    rw [hpiece]
    rfl
  · have hdigitSilent : digit.asksForMember = false := by
      unfold Token.asksForMember
      rw [hdigit]
      rcases hd with rfl | rfl <;> decide
    simp [after, hsilent, hdigitSilent]

end Draft

theorem bindsTighter_nextText (page : Page) (draft : Draft) {read again : List Token}
    (h : List.Forall₂ Token.IsPart (page.parts (settings draft read)) again) :
    (nextText again).any bindsTighter = (nextText read).any bindsTighter := by
  cases read with
  | nil =>
    cases h
    rfl
  | cons token rest =>
    rw [settings, Page.parts] at h
    by_cases hpiece : draft.piece token (nextText rest) = token.text
    · rw [Setting.parts_of_eq hpiece] at h
      cases h with
      | cons hpart _ => rw [nextText_cons, nextText_cons, hpart.text, Draft.piece_setting, hpiece]
    · rw [Setting.parts_of_ne hpiece] at h
      cases h with
      | cons hpart _ =>
        have hshortens := Draft.shortens_of_piece_ne hpiece
        obtain ⟨d, _, hshort⟩ := hshortens.piece
        rw [nextText_cons, nextText_cons, hpart.text, Draft.piece_setting, hshort]
        rcases hshortens.text with htext | htext
        all_goals
          rw [htext]
          exact (by decide : bindsTighter ['!'] = false)

/-- What is read back has the plan of the script. -/
theorem settings_reread (draft other : Draft) (page : Page) (h : draft.Like other)
    {read again : List Token}
    (hwords : ∀ token ∈ read, token.kind.isWord = token.text.head?.any Lexeme.startsWord)
    (hparts : List.Forall₂ Token.IsPart (page.parts (settings draft read)) again) :
    settings other again = (settings draft read).flatMap Setting.reread := by
  induction read generalizing draft other page again with
  | nil =>
    cases hparts
    rfl
  | cons token rest ih =>
    obtain ⟨hword, hwords⟩ := List.forall_mem_cons.1 hwords
    rw [settings, Page.parts] at hparts
    rw [settings, List.flatMap_cons]
    by_cases hpiece : draft.piece token (nextText rest) = token.text
    · rw [Setting.parts_of_eq hpiece] at hparts
      cases hparts with
      | @cons _ first _ later hpart hparts =>
        have hkept : (first.followsBreak && draft.breakMatters token) = draft.breakKept token := by
          rw [hpart.followsBreak]
          apply page.gapBefore_matters
          intro hkept
          exact (Bool.and_eq_true_iff.1 hkept).2
        obtain ⟨hsetting, hlike⟩ := h.setting (hpart.text.trans hpiece)
          (by rw [hpart.word, hword, Draft.piece_setting, hpiece])
          (bindsTighter_nextText _ _ hparts) hkept
        rw [settings, ih _ _ _ hlike hwords hparts, hsetting, Setting.reread_of_eq hpiece]
        rfl
    · rw [Setting.parts_of_ne hpiece] at hparts
      cases hparts with
      | @cons _ sign _ later hsign hparts =>
        cases hparts with
        | @cons _ digit _ later hdigit hparts =>
          have hwords' : sign.kind.isWord = false ∧ digit.kind.isWord = false := by
            rw [hsign.word, hdigit.word, Draft.piece_setting]
            obtain ⟨d, hd, hshort⟩ := (Draft.shortens_of_piece_ne hpiece).piece
            rw [hshort]
            dsimp only
            rcases hd with rfl | rfl <;> decide
          obtain ⟨hsettings, hlike⟩ :=
            h.settings_short hpiece hsign.text hdigit.text hwords'.1 hwords'.2
          rw [settings, settings, nextText_cons, ih _ _ _ hlike hwords hparts, ← hsettings]
          rfl

/-- A page that is read back as the tokens that were written on it has the plan of the script,
up to the short spellings. -/
theorem plan_reread {source minified : Text} {style : Style} {read again : List Token}
    (hstyle : style.statementsOnOwnLine = false) (hread : tokens source = .ok read)
    (hminified : minifyText source style = .ok minified) (hagain : tokens minified = .ok again)
    (hplaces : (again.filter Token.isSignificant).map (fun token => (token.start, token.text)) =
      footprint 0 ((Page.blank style.maxLineLength).parts (plan read))) :
    plan again = (plan read).flatMap Setting.reread := by
  obtain ⟨hconsecutive, hspelled⟩ := consecutive_tokens hagain
  have htext : minified = ((Page.blank style.maxLineLength).parts (plan read)).flatMap
      fun part => part.1 ++ part.2 := by
    rw [minifyText_eq_map_planned, hread] at hminified
    have hplanned : (planned style (plan read)).text = minified := Except.ok.inj hminified
    rw [← hplanned, planned, hstyle, text_foldl_lay_parts]
    rfl
  rw [htext] at hspelled
  have hparts := hconsecutive.forall₂_isPart hspelled hplaces
  refine settings_reread .start .start (.blank style.maxLineLength) ⟨rfl, rfl, rfl⟩ ?_ hparts
  intro token hmem
  obtain ⟨hmem, hs⟩ := List.mem_filter.1 hmem
  exact (consecutive_tokens hread).1.word_of_mem hmem hs

end ScriptMinifier
