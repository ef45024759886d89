-- What stands between the pieces of a minified script. Every significant token leaves one
-- piece, in order and in its own spelling, unless it is a `true` or `false` that has a shorter
-- one. Between the pieces there is nothing but a space or line breaks, and the style has no
-- say in the pieces.
import Mathlib.Data.List.Forall2
import ScriptMinifier.Proofs.Plan

namespace ScriptMinifier

/-! ## Spellings and classes -/

namespace TokenClass

/-- A spelling with a class of its own is in the table. -/
theorem mem_table_of_ofText {text : Text} {c : TokenClass} (h : ofText text = c)
    (hc : c ≠ .literal) : (text, c) ∈ table := by
  unfold ofText at h
  cases hl : table.lookup text with
  | none => exact absurd (by simpa [hl] using h.symm) hc
  | some d =>
    rw [hl, Option.getD_some] at h
    subst h
    obtain ⟨before, after, htable, _⟩ := List.lookup_eq_some_iff.1 hl
    rw [htable]
    simp

end TokenClass

/-- Only an operand can have a class that its spelling does not tell. -/
theorem Token.mem_table_of_classAfter {token : Token} {previous : Option Token} {c : TokenClass}
    (h : token.classAfter previous = c) (hc : c ≠ .literal) :
    (token.text, c) ∈ TokenClass.table := by
  unfold classAfter at h
  split at h
  · exact absurd h.symm hc
  · exact TokenClass.mem_table_of_ofText h hc

/-- The pieces behind which a line may end in a style with statements on their own lines. -/
def lineEnds : List Text := [['{'], ['}'], [')'], [']'], [';']]

theorem text_of_endsLine {text : Text} {c : TokenClass} {p q : Place}
    (h : (text, c) ∈ TokenClass.table)
    (he : (p.endsLineFrom c || q.endsLineAt c) = true) : text ∈ lineEnds := by
  have hc : c = .braceOpen ∨ c = .braceClose ∨ c = .parenClose ∨ c = .semicolon := by
    cases p <;> cases q <;> cases c <;> simp_all [Place.endsLineFrom, Place.endsLineAt]
  have hrows : ∀ row ∈ TokenClass.table, (row.2 = .braceOpen ∨ row.2 = .braceClose ∨
      row.2 = .parenClose ∨ row.2 = .semicolon) → row.1 ∈ lineEnds := by decide
  exact hrows _ h hc

theorem text_of_braceClose {text : Text} (h : (text, TokenClass.braceClose) ∈ TokenClass.table) :
    text = ['}'] := by
  have hrows : ∀ row ∈ TokenClass.table, row.2 = .braceClose → row.1 = ['}'] := by decide
  exact hrows _ h rfl

/-! ## One gap -/

/-- What is put before a piece. -/
def Page.gapBefore (page : Page) (s : Setting) : Text :=
  if s.breakKept then ['\n']
  else if page.overflows s.piece && !s.breakMatters && s.tokenClass != .increment &&
    s.tokenClass != .arrow then ['\n']
  else if page.needsSpace s.piece then [' ']
  else []

/-- What is put behind a piece. -/
def Setting.lineEnd (ownLine : Bool) (s : Setting) : Text :=
  if ownLine && s.endsLine then ['\n'] else []

theorem Page.text_lay (ownLine : Bool) (page : Page) (s : Setting) :
    (page.lay ownLine s).text = page.text ++ page.gapBefore s ++ s.piece ++ s.lineEnd ownLine := by
  have hset : (Page.set (if s.breakKept then page.newline else page) s.piece s.tokenClass
      s.breakKept s.breakMatters).text = page.text ++ page.gapBefore s ++ s.piece := by
    unfold Page.set gapBefore
    cases hk : s.breakKept
    · simp only [Bool.false_eq_true, if_false]
      split
      · simp
      · split <;> simp
    · simp
  unfold lay Setting.lineEnd
  cases ownLine && s.endsLine
  · simpa using hset
  · simp only [if_true, text_newline, hset]

theorem Page.gapBefore_cases (page : Page) (s : Setting) :
    page.gapBefore s = [] ∨ page.gapBefore s = [' '] ∨ page.gapBefore s = ['\n'] := by
  unfold gapBefore
  split
  · simp
  · split
    · simp
    · split <;> simp

/-- Nothing has to be set apart from what stands on the page. -/
structure Page.IsClear (page : Page) : Prop where
  column : page.column = 0
  last : [page.last] ∈ lineEnds
  notInteger : page.endsInInteger = false

theorem Page.isClear_blank (limit : Nat) : (Page.blank limit).IsClear :=
  ⟨rfl, by simp [blank, lineEnds], rfl⟩

/-- A line break is the only thing that can be put on a clear page before a piece. -/
theorem Page.IsClear.gapBefore {page : Page} (h : page.IsClear) (s : Setting) :
    page.gapBefore s = if s.breakKept then ['\n'] else [] := by
  have hoverflows : page.overflows s.piece = false := by simp [overflows, h.column]
  have hspace : page.needsSpace s.piece = false := by
    have hlast : ∀ piece ∈ lineEnds, ∀ c, piece = [c] →
        Character.isOperator c = true ∧ c ≠ '+' ∧ c ≠ '-' ∧ c ≠ '/' ∧ c ≠ '<' := by
      simp only [lineEnds, List.forall_mem_cons]
      refine ⟨?_, ?_, ?_, ?_, ?_, by simp⟩
      all_goals
        rintro c ⟨rfl⟩
        decide
    obtain ⟨ho, h1, h2, h3, h4⟩ := hlast _ h.last page.last rfl
    unfold needsSpace
    split
    · rfl
    · next c _ _ =>
      have hsame : ¬ (page.last = c ∧ (c = '+' ∨ c = '-' ∨ c = '/')) := by
        rintro ⟨rfl, hc | hc | hc⟩
        · exact h1 hc
        · exact h2 hc
        · exact h3 hc
      simp_all [h.notInteger]
  simp [Page.gapBefore, hoverflows, hspace]

/-- A line that has ended leaves the page clear. -/
theorem Page.isClear_lay {ownLine : Bool} (page : Page) {s : Setting}
    (he : (ownLine && s.endsLine) = true) (hp : s.piece ∈ lineEnds) :
    (page.lay ownLine s).IsClear := by
  have hpieces : ∀ piece ∈ lineEnds, (∀ last, [piece.getLast?.getD last] ∈ lineEnds) ∧
      isPlainInteger piece = false := by
    simp only [lineEnds, List.forall_mem_cons]
    refine ⟨?_, ?_, ?_, ?_, ?_, by simp⟩
    all_goals exact ⟨fun _ => by simp, by decide⟩
  obtain ⟨hlast, hinteger⟩ := hpieces _ hp
  constructor
  · simp [lay, he, newline]
  · rw [last_lay]
    exact hlast _
  · rw [endsInInteger_lay]
    exact hinteger

/-! ## All gaps -/

/-- The gaps that the settings leave on a page where `carried` already stands behind the last
piece. There is one gap before each piece and one at the end. -/
def gaps (ownLine : Bool) (page : Page) (carried : Text) : List Setting → List Text
  | [] => [carried]
  | s :: rest =>
    (carried ++ page.gapBefore s) :: gaps ownLine (page.lay ownLine s) (s.lineEnd ownLine) rest

/-- A gap, a piece, a gap and so on. -/
def interleave : List Text → List Text → Text
  | gap :: gaps, piece :: pieces => gap ++ piece ++ interleave gaps pieces
  | gaps, [] => gaps.flatten
  | [], pieces => pieces.flatten

theorem text_foldl_lay (ownLine : Bool) (page : Page) (before carried : Text)
    (plan : List Setting) (h : page.text = before ++ carried) :
    (plan.foldl (Page.lay ownLine) page).text =
      before ++ interleave (gaps ownLine page carried plan) (plan.map Setting.piece) := by
  induction plan generalizing page before carried with
  | nil => simp [gaps, interleave, h]
  | cons s rest ih =>
    have htext : (page.lay ownLine s).text =
        (before ++ carried ++ page.gapBefore s ++ s.piece) ++ s.lineEnd ownLine := by
      rw [Page.text_lay, h]
    rw [List.foldl_cons, ih _ _ _ htext]
    simp [gaps, interleave]

/-- The gaps around some pieces, when `before` is the piece that comes first. -/
structure GapsFit (ownLine : Bool) (before : Option Text) (gaps pieces : List Text) : Prop where
  length : gaps.length = pieces.length + 1
  mem : ∀ gap ∈ gaps, gap = [] ∨ gap = [' '] ∨ gap = ['\n'] ∨
    ownLine = true ∧ gap = ['\n', '\n']
  last : gaps.getLast? = some [] ∨ ownLine = true ∧ gaps.getLast? = some ['\n']
  double : ∀ i : Nat, gaps[i]? = some ['\n', '\n'] →
    (before :: pieces.map some)[i]? = some (some ['}'])

namespace GapsFit

variable {ownLine : Bool} {before : Option Text} {gap piece : Text} {gaps pieces : List Text}

theorem single (h : gap = [] ∨ ownLine = true ∧ gap = ['\n']) :
    GapsFit ownLine before [gap] [] := by
  constructor
  · rfl
  · rcases h with rfl | ⟨_, rfl⟩ <;> simp
  · rcases h with rfl | ⟨ho, rfl⟩
    · simp
    · simp [ho]
  · intro i hi
    cases i with
    | zero => rcases h with rfl | ⟨_, rfl⟩ <;> simp at hi
    | succ i => simp at hi

theorem cons (h : GapsFit ownLine (some piece) gaps pieces)
    (hgap : gap = [] ∨ gap = [' '] ∨ gap = ['\n'] ∨
      ownLine = true ∧ gap = ['\n', '\n'] ∧ before = some ['}']) :
    GapsFit ownLine before (gap :: gaps) (piece :: pieces) := by
  have hne : gaps ≠ [] := by
    rintro rfl
    simpa using h.length
  constructor
  · simp [h.length]
  · simp only [List.forall_mem_cons]
    refine ⟨?_, h.mem⟩
    rcases hgap with hg | hg | hg | ⟨ho, hg, _⟩ <;> simp_all
  · rw [List.getLast?_cons_of_ne_nil hne]
    exact h.last
  · intro i hi
    cases i with
    | zero =>
      have hg : gap = ['\n', '\n'] := by simpa using hi
      rcases hgap with h' | h' | h' | ⟨_, _, hb⟩
      · simp [hg] at h'
      · simp [hg] at h'
      · simp [hg] at h'
      · simp [hb]
    | succ i => simpa using h.double i (by simpa using hi)

end GapsFit

/-! ## The gaps of a plan -/

namespace Draft

variable {draft : Draft} {token : Token} {next : Option Text}

theorem piece_of_class_ne_literal (h : draft.tokenClass token ≠ .literal) :
    draft.piece token next = token.text := by
  unfold piece spelling
  split
  · next hshort => exact absurd (Writer.literal_of_shortened hshort) h
  · rfl

/-- A token that ends a line is written as it is, and is one of a few. -/
theorem piece_of_endsLine (h : (draft.setting token next).endsLine = true) :
    draft.piece token next = token.text ∧ token.text ∈ lineEnds := by
  have hc : draft.tokenClass token ≠ .literal := by
    intro hc
    simp only [setting, hc] at h
    rw [Writer.endsLine_literal] at h
    cases h
  have hrow := Token.mem_table_of_classAfter rfl hc
  exact ⟨piece_of_class_ne_literal hc, text_of_endsLine hrow h⟩

/-- A break is kept behind the end of a line only if that is a closing brace. -/
theorem piece_of_breakKept_after (h : (draft.setting token next).endsLine = true) {other : Token}
    (hkept : (draft.after token next).breakKept other = true) :
    draft.piece token next = ['}'] := by
  obtain ⟨hpiece, _⟩ := piece_of_endsLine h
  have hplace : (draft.after token next).tracker.place ≠ .statement := by
    intro hplace
    simp [breakKept, breakMatters, Tracker.breaksBefore, hplace, Place.breaksBefore] at hkept
  have hat :
      (draft.after token next).tracker.place.endsLineAt (draft.tokenClass token) = false := by
    unfold Place.endsLineAt
    split <;> simp_all
  have hfrom : (draft.opened token).place.endsLineFrom (draft.tokenClass token) = true := by
    simpa [setting, hat] using h
  have hc : draft.tokenClass token = .braceClose := by
    unfold Place.endsLineFrom at hfrom
    split at hfrom <;> simp_all
  rw [hpiece]
  exact text_of_braceClose (Token.mem_table_of_classAfter hc (by decide))

theorem piece_cases (draft : Draft) (token : Token) (next : Option Text) :
    draft.piece token next = token.text ∨
      token.text = "true".toList ∧ draft.piece token next = "!0".toList ∨
      token.text = "false".toList ∧ draft.piece token next = "!1".toList := by
  unfold piece spelling
  split
  · next short hshort =>
    split
    · exact Or.inl rfl
    · unfold shortened? at hshort
      split at hshort
      · split at hshort
        · simp_all
        · split at hshort
          · simp_all
          · simp at hshort
      · simp at hshort
  · exact Or.inl rfl

theorem piece_ne_nil {token : Token} (h : token.text ≠ []) (draft : Draft) (next : Option Text) :
    draft.piece token next ≠ [] := by
  rcases draft.piece_cases token next with hp | ⟨_, hp⟩ | ⟨_, hp⟩
  · rw [hp]
    exact h
  · rw [hp]
    decide
  · rw [hp]
    decide

end Draft

/-- What may stand behind the last piece: nothing, or the break that ended its line. Behind that
break the page is clear, and another one is kept only after a closing brace. -/
def Carries (ownLine : Bool) (draft : Draft) (page : Page) (before : Option Text)
    (carried : Text) : Prop :=
  carried = [] ∨ (ownLine = true ∧ carried = ['\n'] ∧ page.IsClear ∧
    ∀ token, draft.breakKept token = true → before = some ['}'])

theorem carries_lay (ownLine : Bool) (draft : Draft) (page : Page) (token : Token)
    (next : Option Text) :
    Carries ownLine (draft.after token next) (page.lay ownLine (draft.setting token next))
      (some (draft.piece token next)) ((draft.setting token next).lineEnd ownLine) := by
  cases he : ownLine && (draft.setting token next).endsLine with
  | false =>
    left
    simp [Setting.lineEnd, he]
  | true =>
    right
    obtain ⟨hown, hends⟩ : ownLine = true ∧ (draft.setting token next).endsLine = true := by
      simpa using he
    obtain ⟨hpiece, hmem⟩ := Draft.piece_of_endsLine hends
    refine ⟨hown, by simp [Setting.lineEnd, he], Page.isClear_lay page he ?_, ?_⟩
    · exact (show draft.piece token next ∈ lineEnds by rw [hpiece]; exact hmem)
    · intro other hkept
      rw [Draft.piece_of_breakKept_after hends hkept]

theorem gap_of_carries {ownLine : Bool} {draft : Draft} {page : Page} {before : Option Text}
    {carried : Text} (h : Carries ownLine draft page before carried) (token : Token)
    (next : Option Text) :
    let gap := carried ++ page.gapBefore (draft.setting token next)
    gap = [] ∨ gap = [' '] ∨ gap = ['\n'] ∨
      ownLine = true ∧ gap = ['\n', '\n'] ∧ before = some ['}'] := by
  rcases h with rfl | ⟨hown, rfl, hclear, hkept⟩
  · rcases page.gapBefore_cases (draft.setting token next) with h | h | h <;> simp [h]
  · rw [hclear.gapBefore]
    cases hk : (draft.setting token next).breakKept with
    | false => simp
    | true => simp [hown, hkept token hk]

/-- The gaps of a plan fit its pieces. -/
theorem gapsFit_settings (ownLine : Bool) (draft : Draft) (page : Page) (before : Option Text)
    (carried : Text) (h : Carries ownLine draft page before carried) (tokens : List Token) :
    GapsFit ownLine before (gaps ownLine page carried (settings draft tokens))
      ((settings draft tokens).map Setting.piece) := by
  induction tokens generalizing draft page before carried with
  | nil =>
    refine .single ?_
    rcases h with h | ⟨hown, h, _⟩
    · exact Or.inl h
    · exact Or.inr ⟨hown, h⟩
  | cons token rest ih =>
    exact (ih _ _ _ _ (carries_lay ownLine draft page token (nextText rest))).cons
      (gap_of_carries h token (nextText rest))

theorem forall₂_settings (draft : Draft) (tokens : List Token) :
    List.Forall₂ (fun (token : Token) piece => piece = token.text ∨
      token.text = "true".toList ∧ piece = "!0".toList ∨
      token.text = "false".toList ∧ piece = "!1".toList)
      tokens ((settings draft tokens).map Setting.piece) := by
  induction tokens generalizing draft with
  | nil => exact .nil
  | cons token rest ih => exact .cons (draft.piece_cases token (nextText rest)) (ih _)

/-- Nothing stands before the first piece. -/
theorem head?_gaps_settings (ownLine : Bool) (limit : Nat) (tokens : List Token) :
    (gaps ownLine (.blank limit) [] (settings .start tokens)).head? = some [] := by
  cases tokens with
  | nil => rfl
  | cons token rest =>
    have hkept : (Draft.start.setting token (nextText rest)).breakKept = false := by
      simp [Draft.setting, Draft.breakKept, Draft.breakMatters, Draft.start, Tracker.start,
        Tracker.breaksBefore, Place.breaksBefore]
    simp [settings, gaps, (Page.isClear_blank limit).gapBefore, hkept]

/-! ## The law -/

/-- A script that can be read has one list of pieces, a piece for each significant token, and
every style writes these pieces in their order with gaps between them. -/
theorem every_token_leaves_one_piece (source : Text) (read : List Token)
    (h : tokens source = .ok read) :
    ∃ pieces : List Text,
      List.Forall₂ (fun (token : Token) piece => piece = token.text ∨
        token.text = "true".toList ∧ piece = "!0".toList ∨
        token.text = "false".toList ∧ piece = "!1".toList)
        (read.filter Token.isSignificant) pieces ∧
      ∀ style : Style, ∃ gaps : List Text,
        minifyText source style = .ok (interleave gaps pieces) ∧
        gaps.length = pieces.length + 1 ∧ gaps.head? = some [] ∧
        (style.statementsOnOwnLine = false →
          (∀ gap ∈ gaps, gap = [] ∨ gap = [' '] ∨ gap = ['\n']) ∧ gaps.getLast? = some []) ∧
        (style.statementsOnOwnLine = true →
          (∀ gap ∈ gaps, gap = [] ∨ gap = [' '] ∨ gap = ['\n'] ∨ gap = ['\n', '\n']) ∧
          (gaps.getLast? = some [] ∨ gaps.getLast? = some ['\n']) ∧
          ∀ i : Nat, gaps[i + 1]? = some ['\n', '\n'] → pieces[i]? = some ['}']) := by
  refine ⟨(plan read).map Setting.piece, forall₂_settings _ _, fun style => ?_⟩
  refine ⟨gaps style.statementsOnOwnLine (.blank style.maxLineLength) [] (plan read), ?_⟩
  have hfit : GapsFit style.statementsOnOwnLine none
      (gaps style.statementsOnOwnLine (.blank style.maxLineLength) [] (plan read))
      ((plan read).map Setting.piece) :=
    gapsFit_settings style.statementsOnOwnLine .start (.blank style.maxLineLength) none []
      (Or.inl rfl) (read.filter Token.isSignificant)
  have htext := text_foldl_lay style.statementsOnOwnLine (.blank style.maxLineLength) [] []
    (plan read) rfl
  refine ⟨?_, hfit.length, head?_gaps_settings _ _ _, fun hown => ⟨?_, ?_⟩,
    fun hown => ⟨?_, ?_, ?_⟩⟩
  · rw [minifyText_eq_map_planned, h]
    exact congrArg Except.ok htext
  · intro gap hgap
    have := hfit.mem gap hgap
    simpa [hown] using this
  · simpa [hown] using hfit.last
  · intro gap hgap
    have := hfit.mem gap hgap
    simpa [hown] using this
  · simpa [hown] using hfit.last
  · intro i hi
    simpa using hfit.double (i + 1) hi

/-- Two line breaks stand only behind the closing brace of this script. -/
theorem pieces_of_a_function_on_its_own_lines :
    ∃ pieces gaps : List Text, pieces.length = 10 ∧
      minifyText "x=function()\x7b\x7d\ny=true".toList ⟨1000, true⟩ = .ok (interleave gaps pieces) ∧
      ∀ i : Nat, gaps[i + 1]? = some ['\n', '\n'] → pieces[i]? = some ['}'] := by
  have hread : tokens "x=function()\x7b\x7d\ny=true".toList = .ok
      [⟨.identifier, ['x'], 0, false⟩, ⟨.punctuator, ['='], 1, false⟩,
        ⟨.keyword, "function".toList, 2, false⟩, ⟨.punctuator, ['('], 10, false⟩,
        ⟨.punctuator, [')'], 11, false⟩, ⟨.punctuator, ['{'], 12, false⟩,
        ⟨.punctuator, ['}'], 13, false⟩, ⟨.lineBreak, ['\n'], 14, false⟩,
        ⟨.identifier, ['y'], 15, true⟩, ⟨.punctuator, ['='], 16, false⟩,
        ⟨.identifier, "true".toList, 17, false⟩] :=
    eq_ok_of_toOption (by decide +kernel)
  obtain ⟨pieces, hpieces, hstyles⟩ := every_token_leaves_one_piece _ _ hread
  obtain ⟨gaps, hminified, _, _, _, hown⟩ := hstyles ⟨1000, true⟩
  exact ⟨pieces, gaps, hpieces.length_eq.symm, hminified, (hown rfl).2.2⟩

end ScriptMinifier
