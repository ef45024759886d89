-- Writing with foresight. The writer holds a `true` or `false` back until it knows the next token,
-- while its tracker has gone on already. This is not to be seen on the page: a scribe that is told
-- the next token beforehand, and so writes every token at once, fills the same page.
import Mathlib.Data.List.Chain
import ScriptMinifier.Proofs.Gaps
import ScriptMinifier.Proofs.Tokens

namespace ScriptMinifier

/-! ## The scribe -/

/-- The marks that take an operand away from a `!` in front of it. -/
def tightMarks : List Text := [['.'], ['?', '.'], ['['], ['('], ['*', '*']]

/-- Behind an operand, the token leaves it to a `!` in front of it. A template does not. -/
def leavesOperand (text : Text) : Bool := !tightMarks.contains text && text.head? != some '`'

/-- A script in the making, written by one who knows the next token. -/
structure Scribe where
  page : Page
  tracker : Tracker := .start
  previous : Option Token := none
  /-- The piece that was written last. -/
  piece : Option Text := none

namespace Scribe

def ofStyle (style : Style) : Scribe := { page := .blank style.maxLineLength }

/-- A `true` or `false` is shortened if it is an operand in a statement or a property, no dot ends
the piece before it, and the next token, if there is one, leaves it to the `!`. -/
def spell (text : Text) (c : TokenClass) (place : Place) (piece next : Option Text) : Text :=
  if c = .literal ∧
      (place = .expression .plain .operand ∨ place = .expression .property .operand) ∧
      piece.bind List.getLast? ≠ some '.' ∧ next.all leavesOperand = true then
    if text = "true".toList then "!0".toList
    else if text = "false".toList then "!1".toList
    else text
  else text

/-- Writes a token when the text of the next one is known. -/
def write (ownLine : Bool) (scribe : Scribe) (token : Token) (next : Option Text) : Scribe :=
  let c := token.classAfter scribe.previous
  let breakMatters := scribe.tracker.breaksBefore c
  let breakKept := token.followsBreak && breakMatters
  let tracker := if breakKept then scribe.tracker.endStatement else scribe.tracker
  let page := if breakKept then scribe.page.newline else scribe.page
  let piece := spell token.text c tracker.place scribe.piece next
  let written := page.set piece c breakKept breakMatters
  let endsLine := tracker.place.endsLineFrom c || (tracker.advance c).place.endsLineAt c
  { page := if ownLine && endsLine then written.newline else written
    tracker := tracker.advance c
    previous := some token
    piece := some piece }

def writeAll (ownLine : Bool) (scribe : Scribe) : List Token → Scribe
  | [] => scribe
  | token :: rest => (scribe.write ownLine token (nextText rest)).writeAll ownLine rest

/-! ## What the scribe decides -/

/-- The scribe as one who plans a page. -/
def draft (scribe : Scribe) : Draft := ⟨scribe.tracker, scribe.previous, scribe.page.last⟩

/-- The page and the last piece tell the same about a dot. -/
def SeesDot (scribe : Scribe) : Prop :=
  scribe.piece.bind List.getLast? = some '.' ↔ scribe.page.last = '.'

theorem seesDot_ofStyle (style : Style) : (ofStyle style).SeesDot := by
  unfold SeesDot ofStyle Page.blank
  simp

end Scribe

theorem leavesOperand_eq_not_bindsTighter (text : Text) :
    leavesOperand text = !bindsTighter text := by
  unfold leavesOperand bindsTighter
  have hswap : ∀ mark : Text, (mark == text) = (text == mark) := fun mark => BEq.comm
  have hmarks : [".", "?.", "[", "(", "**"].any (·.toList == text) = tightMarks.contains text := by
    simp only [List.any_cons, List.any_nil, hswap]
    rfl
  rw [hmarks, Bool.not_or]
  rfl

namespace Scribe

/-- The scribe spells a token as it is planned. -/
theorem spell_eq_spelling {text : Text} {c : TokenClass} {place : Place} {piece next : Option Text}
    {last : Char} (h : piece.bind List.getLast? = some '.' ↔ last = '.') :
    spell text c place piece next = spelling text c place last next := by
  have hnext : next.all leavesOperand = !next.any bindsTighter := by
    cases next with
    | none => rfl
    | some text => exact leavesOperand_eq_not_bindsTighter text
  unfold spell spelling
  by_cases hplace : c = .literal ∧ last ≠ '.' ∧
      (place = .expression .plain .operand ∨ place = .expression .property .operand)
  · have hshort : shortened? text c place last = if text = "true".toList then some "!0".toList
        else if text = "false".toList then some "!1".toList else none := if_pos hplace
    obtain ⟨hc, hlast, hscope⟩ := hplace
    rw [hshort]
    cases hany : next.any bindsTighter with
    | true =>
      rw [if_neg]
      · split <;> rfl
      · rintro ⟨_, _, _, hall⟩
        rw [hnext, hany] at hall
        cases hall
    | false =>
      rw [if_pos ⟨hc, hscope, mt h.1 hlast, by rw [hnext, hany]; rfl⟩]
      by_cases htrue : text = "true".toList
      · rw [if_pos htrue, if_pos htrue]
        rfl
      · rw [if_neg htrue, if_neg htrue]
        split <;> rfl
  · have hnone : shortened? text c place last = none := if_neg hplace
    rw [hnone, if_neg]
    rintro ⟨hc, hscope, hdot, _⟩
    exact hplace ⟨hc, mt h.2 hdot, hscope⟩

variable {scribe : Scribe} {token : Token} {next : Option Text}

theorem piece_write (h : scribe.SeesDot) (ownLine : Bool) (token : Token) (next : Option Text) :
    (scribe.write ownLine token next).piece = some (scribe.draft.piece token next) :=
  congrArg some (spell_eq_spelling h)

/-- One token of the scribe is one setting on the page. -/
theorem page_write (h : scribe.SeesDot) (ownLine : Bool) (token : Token) (next : Option Text) :
    (scribe.write ownLine token next).page =
      scribe.page.lay ownLine (scribe.draft.setting token next) := by
  have hpiece := Option.some.inj (piece_write h ownLine token next)
  unfold Page.lay
  rw [Draft.piece_setting, ← hpiece]
  rfl

theorem draft_write (h : scribe.SeesDot) (ownLine : Bool) (token : Token) (next : Option Text) :
    (scribe.write ownLine token next).draft = scribe.draft.after token next := by
  have hlast : (scribe.write ownLine token next).page.last =
      (scribe.draft.after token next).last := by
    rw [page_write h, Page.last_lay]
    rfl
  unfold draft
  rw [hlast]
  rfl

/-- A piece is not empty, so its end is the end of the page. -/
theorem seesDot_write (h : scribe.SeesDot) (ownLine : Bool) (htoken : token.text ≠ []) :
    (scribe.write ownLine token next).SeesDot := by
  unfold SeesDot
  rw [piece_write h, page_write h, Page.last_lay, Option.bind_some, Draft.piece_setting,
    List.getLast?_eq_some_getLast (Draft.piece_ne_nil htoken _ _)]
  simp

/-- The scribe lays down the plan of the tokens. -/
theorem page_writeAll (h : scribe.SeesDot) (ownLine : Bool) {tokens : List Token}
    (htokens : ∀ token ∈ tokens, token.text ≠ []) :
    (scribe.writeAll ownLine tokens).page =
      (settings scribe.draft tokens).foldl (Page.lay ownLine) scribe.page := by
  induction tokens generalizing scribe with
  | nil => rfl
  | cons token rest ih =>
    obtain ⟨htoken, hrest⟩ := List.forall_mem_cons.1 htokens
    rw [writeAll, ih (seesDot_write h ownLine htoken) hrest, draft_write h, page_write h, settings,
      List.foldl_cons]

end Scribe

/-! ## Pieces on a page -/

/-- The pieces on a page, from the first to the last. -/
def Page.pieces (page : Page) : List Text :=
  page.marks.reverse.filterMap fun
    | .piece text => some text
    | .space | .newline => none

namespace Page

@[simp]
theorem pieces_newline (page : Page) : page.newline.pieces = page.pieces := by
  simp [pieces, newline]

@[simp]
theorem pieces_space (page : Page) : page.space.pieces = page.pieces := by
  simp [pieces, space]

@[simp]
theorem pieces_write (page : Page) (text : Text) :
    (page.write text).pieces = page.pieces ++ [text] := by
  simp [pieces, write]

theorem pieces_set (page : Page) (text : Text) (c : TokenClass) (kept matters : Bool) :
    (page.set text c kept matters).pieces = page.pieces ++ [text] := by
  unfold set
  split
  · simp
  · split
    · simp
    · split <;> simp

theorem pieces_lay (page : Page) (ownLine : Bool) (s : Setting) :
    (page.lay ownLine s).pieces = page.pieces ++ [s.piece] := by
  have hopened : (if s.breakKept then page.newline else page).pieces = page.pieces := by
    split
    · exact pieces_newline page
    · rfl
  unfold lay
  dsimp only
  split
  · rw [pieces_newline, pieces_set, hopened]
  · rw [pieces_set, hopened]

theorem pieces_foldl_lay (page : Page) (ownLine : Bool) (plan : List Setting) :
    (plan.foldl (lay ownLine) page).pieces = page.pieces ++ plan.map Setting.piece := by
  induction plan generalizing page with
  | nil => simp
  | cons s rest ih =>
    rw [List.foldl_cons, ih, pieces_lay]
    simp

end Page

/-- A token that is shortened is followed by one that leaves the operand alone. -/
theorem Draft.leavesOperand_of_piece_ne {draft : Draft} {token : Token} {next : Option Text}
    (h : draft.piece token next ≠ token.text) : next.all leavesOperand = true := by
  unfold piece spelling at h
  split at h
  · split at h
    · exact absurd rfl h
    · next hloose =>
      cases next with
      | none => rfl
      | some text =>
        rw [Option.all_some, leavesOperand_eq_not_bindsTighter]
        simpa using hloose
  · exact absurd rfl h

/-- So is the piece of a token that is shortened. -/
theorem leavesOperand_after {draft : Draft} {tokens : List Token} {i : Nat} {token : Token}
    {piece next : Text} (htoken : tokens[i]? = some token)
    (hpiece : ((settings draft tokens).map Setting.piece)[i]? = some piece)
    (hne : piece ≠ token.text)
    (hnext : ((settings draft tokens).map Setting.piece)[i + 1]? = some next) :
    leavesOperand next = true := by
  induction tokens generalizing draft i with
  | nil => cases htoken
  | cons first rest ih =>
    cases i with
    | succ i => exact ih htoken hpiece hnext
    | zero =>
      obtain rfl := Option.some.inj htoken
      obtain rfl := Option.some.inj hpiece
      cases rest with
      | nil => cases hnext
      | cons second rest =>
        obtain rfl := Option.some.inj hnext
        have hloose := Draft.leavesOperand_of_piece_ne hne
        rcases (draft.after first (some second.text)).piece_cases second (nextText rest) with
          hp | ⟨_, hp⟩ | ⟨_, hp⟩
        · rw [nextText_cons, Draft.piece_setting, hp]
          exact hloose
        · rw [nextText_cons, Draft.piece_setting, hp]
          decide
        · rw [nextText_cons, Draft.piece_setting, hp]
          decide

/-! ## The states of the writer -/

namespace Writer

/-- The states that the writer goes through with a token: it has set what it held back, kept the
break before the token, put the token, moved on past it and noted it. -/
def stages (writer : Writer) (token : Token) : List Writer :=
  let settled := writer.settle (some token.text)
  let c := token.classAfter settled.previous
  let breakMatters := settled.tracker.breaksBefore c
  let breakKept := token.followsBreak && breakMatters
  let opened := if breakKept then settled.keepBreak else settled
  let put := opened.put token.text c breakKept breakMatters
  [settled, opened, put, put.advance c, { put.advance c with previous := some token }]

/-- The states that the writer goes through with all tokens, up to the end. -/
def states (writer : Writer) : List Token → List Writer
  | [] => [writer.settle none]
  | token :: rest => writer.stages token ++ (writer.accept token).states rest

theorem getLast?_stages (writer : Writer) (token : Token) :
    (writer.stages token).getLast? = some (writer.accept token) := rfl

/-- No break stands before a held piece, and none matters there. -/
def HoldsPlainly (writer : Writer) : Prop :=
  ∀ piece ∈ writer.held, piece.breakKept = false ∧ piece.breakMatters = false

/-- From one state to the next, a held piece is held on with nothing written on the page, or it is
set on that page, in its full or in its short spelling. -/
def HoldsOn (before after : Writer) : Prop :=
  ∀ piece ∈ before.held,
    after.held = some piece ∧ after.page = before.page ∨
    after.held = none ∧ ∃ text, (text = piece.full ∨ text = piece.short) ∧
      after.page = before.page.set text .literal false false

theorem holdsPlainly_of_none {writer : Writer} (h : writer.held = none) : writer.HoldsPlainly := by
  intro piece hpiece
  rw [h] at hpiece
  cases hpiece

theorem holdsOn_of_none {before : Writer} (after : Writer) (h : before.held = none) :
    before.HoldsOn after := by
  intro piece hpiece
  rw [h] at hpiece
  cases hpiece

theorem holdsOn_settle {writer : Writer} (h : writer.HoldsPlainly) (next : Option Text) :
    writer.HoldsOn (writer.settle next) := by
  intro piece hpiece
  obtain ⟨hkept, hmatters⟩ := h piece hpiece
  have hheld : writer.held = some piece := hpiece
  refine Or.inr ⟨held_settle writer next,
    if next.any bindsTighter then piece.full else piece.short, ?_, ?_⟩
  · split
    · exact Or.inl rfl
    · exact Or.inr rfl
  · simp only [settle, hheld, hkept, hmatters]

/-- A token is held back only as an operand in an expression. -/
theorem eq_literal_of_held_put {writer : Writer} (h : writer.held = none) {text : Text}
    {c : TokenClass} {kept matters : Bool} {piece : HeldPiece}
    (hpiece : (writer.put text c kept matters).held = some piece) :
    c = .literal ∧ piece.breakKept = kept ∧ piece.breakMatters = matters ∧
      ∃ scope, writer.tracker.place = .expression scope .operand := by
  unfold put at hpiece
  split at hpiece
  · next hshort =>
    obtain rfl := Option.some.inj hpiece
    unfold shortened? at hshort
    split at hshort
    · next hplace =>
      obtain ⟨hc, _, hplace⟩ := hplace
      refine ⟨hc, rfl, rfl, ?_⟩
      rcases hplace with hplace | hplace
      · exact ⟨_, hplace⟩
      · exact ⟨_, hplace⟩
    · cases hshort
  · rw [h] at hpiece
    cases hpiece

/-- A break does not matter where an operand is awaited, and a kept one leads to a statement. -/
theorem holdsPlainly_put {writer : Writer} (h : writer.held = none) (text : Text) (c : TokenClass)
    (followsBreak : Bool) :
    let matters := writer.tracker.breaksBefore c
    let kept := followsBreak && matters
    ((if kept then writer.keepBreak else writer).put text c kept matters).HoldsPlainly := by
  intro matters kept piece hpiece
  have hheld : (if kept then writer.keepBreak else writer).held = none := by
    split
    · exact h
    · exact h
  obtain ⟨_, hkept, hmatters, scope, hplace⟩ := eq_literal_of_held_put hheld hpiece
  cases hk : kept with
  | true =>
    rw [hk] at hplace
    cases hplace
  | false =>
    rw [hk] at hplace hkept
    have hnever : matters = false := by
      show writer.tracker.place.breaksBefore c = false
      rw [show writer.tracker.place = _ from hplace]
      cases scope <;> rfl
    exact ⟨hkept, hmatters.trans hnever⟩

/-- Moving on past a token that is held back writes nothing. -/
theorem holdsOn_advance_put {writer : Writer} (h : writer.held = none) (text : Text)
    (c : TokenClass) (kept matters : Bool) :
    (writer.put text c kept matters).HoldsOn ((writer.put text c kept matters).advance c) := by
  intro piece hpiece
  obtain ⟨rfl, _⟩ := eq_literal_of_held_put h hpiece
  refine Or.inl ⟨hpiece, ?_⟩
  unfold advance
  dsimp only
  rw [endsLine_literal, Bool.and_false, if_neg (by decide)]

/-- The invariant and the steps of all states that a token leads through. -/
theorem stages_hold {writer : Writer} (h : writer.HoldsPlainly) (token : Token) :
    (∀ stage ∈ writer.stages token, stage.HoldsPlainly) ∧
      (writer :: writer.stages token).IsChain HoldsOn := by
  have hsettled := held_settle writer (some token.text)
  have hput := holdsPlainly_put hsettled token.text
    (token.classAfter (writer.settle (some token.text)).previous) token.followsBreak
  have hstep := holdsOn_settle h (some token.text)
  unfold stages
  dsimp only at hput ⊢
  generalize writer.settle (some token.text) = settled at *
  generalize token.classAfter settled.previous = c at *
  generalize settled.tracker.breaksBefore c = matters at *
  generalize (token.followsBreak && matters) = kept at *
  have hopened : (if kept then settled.keepBreak else settled).held = none := by
    split
    · exact hsettled
    · exact hsettled
  generalize (if kept then settled.keepBreak else settled) = opened at *
  have hadvance := holdsOn_advance_put hopened token.text c kept matters
  generalize opened.put token.text c kept matters = put at *
  constructor
  · simp only [List.forall_mem_cons]
    exact ⟨holdsPlainly_of_none hsettled, holdsPlainly_of_none hopened, hput, hput, hput, by simp⟩
  · simp only [List.isChain_cons_cons, List.IsChain.singleton, and_true]
    refine ⟨hstep, holdsOn_of_none opened hsettled, holdsOn_of_none put hopened, hadvance, ?_⟩
    intro piece hpiece
    exact Or.inl ⟨hpiece, rfl⟩

/-- The same for all tokens. -/
theorem states_hold {writer : Writer} (h : writer.HoldsPlainly) (tokens : List Token) :
    (∀ state ∈ writer.states tokens, state.HoldsPlainly) ∧
      (writer :: writer.states tokens).IsChain HoldsOn := by
  induction tokens generalizing writer with
  | nil =>
    constructor
    · intro state hstate
      obtain rfl := List.mem_singleton.1 hstate
      exact holdsPlainly_of_none (held_settle writer none)
    · exact List.isChain_cons_cons.2 ⟨holdsOn_settle h none, .singleton _⟩
  | cons token rest ih =>
    obtain ⟨hstages, hchain⟩ := stages_hold h token
    have hlast : writer.accept token ∈ writer.stages token :=
      List.mem_of_getLast? (getLast?_stages writer token)
    obtain ⟨hstates, hrest⟩ := ih (hstages _ hlast)
    constructor
    · rw [states]
      intro state hstate
      rcases List.mem_append.1 hstate with hstate | hstate
      · exact hstages state hstate
      · exact hstates state hstate
    · -- The last of the stages is where the next token begins.
      obtain ⟨first, hfirst⟩ := List.getLast?_eq_some_iff.1 (getLast?_stages writer token)
      rw [hfirst, ← List.cons_append] at hchain
      rw [states, hfirst, List.append_assoc, List.singleton_append, ← List.cons_append]
      exact List.isChain_split.2 ⟨hchain, hrest⟩

end Writer

/-! ## The law -/

/-- Holding a `true` or `false` back is not to be seen. Every script that can be read is minified to
what the scribe writes, who knows each next token beforehand. In every state of the writer, whether
the script can be read to its end or not, no break stands before a held piece and none matters
there, and nothing is written between holding it back and setting it. And no short spelling is
followed by a piece that would take the operand away from its `!`. -/
theorem held_pieces_are_set_as_foreseen (source : Text) (style : Style) :
    (∀ read, tokens source = .ok read →
      let significant := read.filter Token.isSignificant
      let written := (significant.foldl Writer.accept (.ofStyle style)).settle none
      minifyText source style =
        .ok (Scribe.writeAll style.statementsOnOwnLine (.ofStyle style) significant).page.text ∧
      minifyText source style = .ok written.page.text ∧
      written.page.pieces.length = significant.length ∧
      ∀ (i : Nat) (token : Token) (piece next : Text), significant[i]? = some token →
        written.page.pieces[i]? = some piece → piece ≠ token.text →
        written.page.pieces[i + 1]? = some next → leavesOperand next = true) ∧
    let handed := ((Writer.ofStyle style).log (.ofText source)).map Prod.snd
    let states := Writer.ofStyle style :: (Writer.ofStyle style).states handed
    (∀ writer ∈ states, ∀ piece ∈ writer.held,
      piece.breakKept = false ∧ piece.breakMatters = false) ∧
    states.IsChain Writer.HoldsOn := by
  refine ⟨fun read hread => ?_, ?_⟩
  · intro significant written
    have hfilled : ∀ token ∈ significant, token.text ≠ [] := fun token htoken =>
      (consecutive_tokens hread).1.text_ne_nil_of_mem (List.mem_of_mem_filter htoken)
    have hplanned := minifyText_eq_map_planned source style
    have hfolded := minifyText_eq_map_tokens source style
    rw [hread] at hplanned hfolded
    have hwritten : written.page.pieces = (settings .start significant).map Setting.piece := by
      rw [show written.page = _ from Writer.page_foldl_accept rfl significant,
        Page.pieces_foldl_lay]
      rfl
    refine ⟨?_, hfolded, ?_, ?_⟩
    · rw [Scribe.page_writeAll (Scribe.seesDot_ofStyle style) _ hfilled]
      exact hplanned
    · rw [hwritten, (forall₂_settings .start significant).length_eq]
    · intro i token piece next htoken hpiece hne hnext
      rw [hwritten] at hpiece hnext
      exact leavesOperand_after htoken hpiece hne hnext
  · intro handed states
    have hstart : (Writer.ofStyle style).HoldsPlainly := Writer.holdsPlainly_of_none rfl
    obtain ⟨hstates, hchain⟩ := Writer.states_hold hstart handed
    exact ⟨List.forall_mem_cons.2 ⟨hstart, hstates⟩, hchain⟩

/-- Before a brace the word is shortened, and before a bracket it is not. -/
theorem scribe_foresees_a_brace_and_a_bracket :
    ∃ read, tokens "\x7bx=true\x7dy=false[0]".toList = .ok read ∧
      (Scribe.writeAll true (.ofStyle ⟨1000, true⟩) (read.filter Token.isSignificant)).page.text =
        "\x7b\nx=!0\x7dy=false[0]".toList ∧
      (Writer.ofStyle ⟨1000, true⟩ :: (Writer.ofStyle ⟨1000, true⟩).states
        (((Writer.ofStyle ⟨1000, true⟩).log (.ofText "\x7bx=true\x7dy=false[0]".toList)).map
          Prod.snd)).IsChain Writer.HoldsOn := by
  have hread : tokens "\x7bx=true\x7dy=false[0]".toList = .ok
      [⟨.punctuator, ['{'], 0, false⟩, ⟨.identifier, ['x'], 1, false⟩,
        ⟨.punctuator, ['='], 2, false⟩, ⟨.identifier, "true".toList, 3, false⟩,
        ⟨.punctuator, ['}'], 7, false⟩, ⟨.identifier, ['y'], 8, false⟩,
        ⟨.punctuator, ['='], 9, false⟩, ⟨.identifier, "false".toList, 10, false⟩,
        ⟨.punctuator, ['['], 15, false⟩, ⟨.number, ['0'], 16, false⟩,
        ⟨.punctuator, [']'], 17, false⟩] :=
    eq_ok_of_toOption (by decide +kernel)
  have hminified : minifyText "\x7bx=true\x7dy=false[0]".toList ⟨1000, true⟩ =
      .ok "\x7b\nx=!0\x7dy=false[0]".toList := eq_ok_of_toOption (by decide +kernel)
  obtain ⟨hscribe, _, hchain⟩ :=
    held_pieces_are_set_as_foreseen "\x7bx=true\x7dy=false[0]".toList ⟨1000, true⟩
  refine ⟨_, hread, ?_, hchain⟩
  exact Except.ok.inj ((hscribe _ hread).1.symm.trans hminified)

end ScriptMinifier
