-- The plan of a page. How each token is spelled, and whether a line break before it has to
-- stay, depends on the tokens alone. The style only decides where the pieces go. So a writer
-- that holds a piece back until the next token is known does the same as one that plans all
-- its pieces first and then lays them down one after the other.
import ScriptMinifier.Proofs.Agreement

namespace ScriptMinifier

/-! ## Settings -/

/-- What is decided about a token before it is set on a page. -/
structure Setting where
  full : Text
  /-- The text that is written for it. -/
  piece : Text
  tokenClass : TokenClass
  breakKept : Bool
  breakMatters : Bool
  /-- The token ends a line, in a style with statements on their own lines. -/
  endsLine : Bool
deriving DecidableEq, Repr

/-- The text that is written for a token, when the text of the next one is known. -/
def spelling (text : Text) (c : TokenClass) (place : Place) (last : Char) (next : Option Text) :
    Text :=
  match shortened? text c place last with
  | some short => if next.any bindsTighter then text else short
  | none => text

/-- What the tokens before have decided. -/
structure Draft where
  tracker : Tracker
  previous : Option Token
  /-- The last character of the last piece. -/
  last : Char
deriving DecidableEq, Repr

namespace Draft

def start : Draft := { tracker := .start, previous := none, last := ';' }

variable (draft : Draft) (token : Token) (next : Option Text)

def tokenClass : TokenClass := token.classAfter draft.previous

def breakMatters : Bool := draft.tracker.breaksBefore (draft.tokenClass token)

def breakKept : Bool := token.followsBreak && draft.breakMatters token

/-- The tracker that meets the token. A break that is kept has ended the statement. -/
def opened : Tracker :=
  if draft.breakKept token then draft.tracker.endStatement else draft.tracker

def piece : Text :=
  spelling token.text (draft.tokenClass token) (draft.opened token).place draft.last next

def after : Draft :=
  { tracker := (draft.opened token).advance (draft.tokenClass token)
    previous := some token
    last := (draft.piece token next).getLast?.getD draft.last }

def setting : Setting :=
  { full := token.text
    piece := draft.piece token next
    tokenClass := draft.tokenClass token
    breakKept := draft.breakKept token
    breakMatters := draft.breakMatters token
    endsLine := (draft.opened token).place.endsLineFrom (draft.tokenClass token) ||
      (draft.after token next).tracker.place.endsLineAt (draft.tokenClass token) }

@[simp]
theorem full_setting : (draft.setting token next).full = token.text := rfl

@[simp]
theorem piece_setting : (draft.setting token next).piece = draft.piece token next := rfl

end Draft

def nextText (tokens : List Token) : Option Text := tokens.head?.map Token.text

@[simp]
theorem nextText_cons (token : Token) (rest : List Token) :
    nextText (token :: rest) = some token.text := rfl

def settings (draft : Draft) : List Token → List Setting
  | [] => []
  | token :: rest =>
    draft.setting token (nextText rest) :: settings (draft.after token (nextText rest)) rest

/-- Puts a piece on a page as its setting tells. -/
def Page.lay (ownLine : Bool) (page : Page) (s : Setting) : Page :=
  let opened := if s.breakKept then page.newline else page
  let written := opened.set s.piece s.tokenClass s.breakKept s.breakMatters
  if ownLine && s.endsLine then written.newline else written

/-! ## The end of the last piece -/

@[simp]
theorem Page.last_newline (page : Page) : page.newline.last = page.last := rfl

@[simp]
theorem Page.last_set (page : Page) (text : Text) (c : TokenClass) (kept matters : Bool) :
    (page.set text c kept matters).last = text.getLast?.getD page.last := by
  unfold Page.set
  split
  · rfl
  · split
    · rfl
    · split <;> rfl

@[simp]
theorem Page.last_lay (ownLine : Bool) (page : Page) (s : Setting) :
    (page.lay ownLine s).last = s.piece.getLast?.getD page.last := by
  unfold Page.lay
  cases s.breakKept <;> cases ownLine && s.endsLine <;> simp

@[simp]
theorem Page.endsInInteger_set (page : Page) (text : Text) (c : TokenClass)
    (kept matters : Bool) :
    (page.set text c kept matters).endsInInteger = isPlainInteger text := by
  unfold Page.set
  split
  · rfl
  · split
    · rfl
    · split <;> rfl

@[simp]
theorem Page.endsInInteger_lay (ownLine : Bool) (page : Page) (s : Setting) :
    (page.lay ownLine s).endsInInteger = isPlainInteger s.piece := by
  unfold Page.lay
  cases ownLine && s.endsLine <;> simp [Page.newline]

/-! ## One token -/

namespace Writer

/-- The part of the writer that decides about the next token. -/
def draft (writer : Writer) : Draft := ⟨writer.tracker, writer.previous, writer.page.last⟩

theorem settle_of_held_none {writer : Writer} (h : writer.held = none) (next : Option Text) :
    writer.settle next = writer := by
  simp [settle, h]

@[simp]
theorem held_settle (writer : Writer) (next : Option Text) : (writer.settle next).held = none := by
  unfold settle
  split
  · assumption
  · rfl

theorem literal_of_shortened {text short : Text} {c : TokenClass} {place : Place} {last : Char}
    (h : shortened? text c place last = some short) : c = .literal := by
  unfold shortened? at h
  split at h
  · next hc => exact hc.1
  · simp at h

theorem endsLine_literal (p q : Place) :
    (p.endsLineFrom .literal || q.endsLineAt .literal) = false := by
  cases p <;> cases q <;> rfl

/-- A piece that is put and settled is where it would be if it had never been held back. -/
theorem settle_advance_put {writer : Writer} (h : writer.held = none) (token : Token)
    (c : TokenClass) (kept matters : Bool) (next : Option Text) :
    settle { (writer.put token.text c kept matters).advance c with previous := some token } next =
      { style := writer.style
        page :=
          let written := writer.page.set
            (spelling token.text c writer.tracker.place writer.page.last next) c kept matters
          if writer.style.statementsOnOwnLine && (writer.tracker.place.endsLineFrom c ||
            (writer.tracker.advance c).place.endsLineAt c) then written.newline else written
        tracker := writer.tracker.advance c
        previous := some token
        held := none } := by
  cases hshort : shortened? token.text c writer.tracker.place writer.page.last with
  | none =>
    have hput : writer.put token.text c kept matters =
        { writer with page := writer.page.set token.text c kept matters } := by
      simp [put, hshort]
    rw [hput]
    simp [advance, spelling, hshort, settle, h]
  | some short =>
    obtain rfl := literal_of_shortened hshort
    have hput : writer.put token.text .literal kept matters =
        { writer with held := some ⟨token.text, short, kept, matters⟩ } := by
      simp [put, hshort]
    rw [hput]
    simp [advance, spelling, hshort, settle, endsLine_literal]

/-- A writer that has taken a token and knows the next one has laid the piece down. -/
theorem settle_accept {writer : Writer} (h : writer.held = none) (token : Token)
    (next : Option Text) :
    (writer.accept token).settle next =
      { style := writer.style
        page := writer.page.lay writer.style.statementsOnOwnLine (writer.draft.setting token next)
        tracker := (writer.draft.after token next).tracker
        previous := some token
        held := none } := by
  have hsettled : writer.settle (some token.text) = writer := settle_of_held_none h _
  unfold accept
  simp only [hsettled]
  rw [settle_advance_put]
  · cases hkept : token.followsBreak &&
      writer.tracker.breaksBefore (token.classAfter writer.previous)
    · simp [Page.lay, Draft.setting, Draft.after, Draft.opened, Draft.breakKept,
        Draft.breakMatters, Draft.tokenClass, Draft.piece, draft, hkept]
    · simp [Page.lay, Draft.setting, Draft.after, Draft.opened, Draft.breakKept,
        Draft.breakMatters, Draft.tokenClass, Draft.piece, draft, hkept, keepBreak]
  · split <;> exact h

theorem draft_settle_accept {writer : Writer} (h : writer.held = none) (token : Token)
    (next : Option Text) :
    ((writer.accept token).settle next).draft = writer.draft.after token next := by
  simp [settle_accept h, draft, Draft.after, Draft.setting]

/-! ## All tokens -/

/-- A held piece may be settled as soon as the next token is known. -/
theorem settle_foldl_settle (writer : Writer) (tokens : List Token) :
    (tokens.foldl accept (writer.settle (nextText tokens))).settle none =
      (tokens.foldl accept writer).settle none := by
  cases tokens with
  | nil =>
    have := settle_of_held_none (held_settle writer none) none
    simp [nextText, this]
  | cons token rest =>
    have := settle_of_held_none (held_settle writer (some token.text)) (some token.text)
    simp [nextText, accept, this]

/-- Writing tokens is laying down their settings. -/
theorem page_foldl_accept {writer : Writer} (h : writer.held = none) (tokens : List Token) :
    ((tokens.foldl accept writer).settle none).page =
      (settings writer.draft tokens).foldl (Page.lay writer.style.statementsOnOwnLine)
        writer.page := by
  induction tokens generalizing writer with
  | nil => simp [settings, settle_of_held_none h]
  | cons token rest ih =>
    rw [List.foldl_cons, ← settle_foldl_settle, ih (held_settle _ _), draft_settle_accept h,
      settle_accept h, settings, List.foldl_cons]

end Writer

/-! ## The whole script -/

/-- What is decided about the significant tokens of a script. -/
def plan (read : List Token) : List Setting :=
  settings .start (read.filter Token.isSignificant)

def planned (style : Style) (plan : List Setting) : Page :=
  plan.foldl (Page.lay style.statementsOnOwnLine) (.blank style.maxLineLength)

/-- Minifying a script is laying down its plan. -/
theorem minifyText_eq_map_planned (source : Text) (style : Style) :
    minifyText source style =
      (tokens source).map fun read => (planned style (plan read)).text := by
  rw [minifyText_eq_map_tokens]
  congr 1
  funext read
  exact congrArg Page.text (Writer.page_foldl_accept rfl _)

end ScriptMinifier
