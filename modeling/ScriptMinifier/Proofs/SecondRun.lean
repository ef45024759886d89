-- A second run over a minified script. If the text is read back as the tokens that were written,
-- it makes no difference that the script was minified before: the last style decides. The one
-- exception is a short spelling with a dot behind it, since its digit is set apart from the dot
-- only when it is a token of its own.
import Mathlib.Algebra.GroupWithZero.Nat
import Mathlib.Data.List.Chain
import ScriptMinifier.Proofs.Rereading

namespace ScriptMinifier

open Character

/-! ## Short spellings -/

/-- The setting of a `true` or `false` in its short spelling. -/
structure Setting.IsShort (s : Setting) : Prop where
  piece : ∃ digit, (digit = '0' ∨ digit = '1') ∧ s.piece = ['!', digit]
  shorter : s.piece.length < s.full.length
  breakKept : s.breakKept = false
  endsLine : s.endsLine = false

/-- A setting as it can stand in a plan. -/
def Setting.IsSound (s : Setting) : Prop := s.piece ≠ s.full → s.IsShort

theorem isSound_of_mem_settings {draft : Draft} {read : List Token} {s : Setting}
    (h : s ∈ settings draft read) : s.IsSound := by
  induction read generalizing draft with
  | nil => cases h
  | cons token rest ih =>
    rw [settings] at h
    rcases List.mem_cons.1 h with rfl | h
    · intro hne
      have hshortens := Draft.shortens_of_piece_ne hne
      obtain ⟨scope, hplace⟩ := hshortens.place
      obtain ⟨digit, _, hpiece⟩ := hshortens.piece
      refine ⟨hshortens.piece, ?_, Draft.breakKept_of_operand hplace token, ?_⟩
      · rw [Draft.piece_setting, Draft.full_setting, hpiece]
        have hlengths : 2 < "true".toList.length ∧ 2 < "false".toList.length := by decide
        rcases hshortens.text with htext | htext
        · rw [htext]
          exact hlengths.1
        · rw [htext]
          exact hlengths.2
      · unfold Draft.setting
        rw [hshortens.tokenClass, Writer.endsLine_literal]
    · exact ih h

/-! ## Pages with room for everything -/

/-- What is put before a piece that still fits on its line. -/
def Page.joint (page : Page) (s : Setting) : Text :=
  if s.breakKept then ['\n'] else if page.needsSpace s.piece then [' '] else []

/-- What the settings add to a page with room for all of them on one line. -/
def Page.joined (ownLine : Bool) (page : Page) : List Setting → Text
  | [] => []
  | s :: rest =>
    page.joint s ++ (s.piece ++ (s.lineEnd ownLine ++ (page.lay ownLine s).joined ownLine rest))

/-- The room that the settings take at most. -/
def room (plan : List Setting) : Nat := (plan.map fun s => s.full.length + 1).sum

theorem Page.column_set_le (page : Page) (text : Text) (c : TokenClass) (kept matters : Bool) :
    (page.set text c kept matters).column ≤ page.column + text.length + 1 := by
  unfold Page.set
  split
  · simp only [write]
    omega
  · split
    · simp only [write, newline]
      omega
    · split
      · simp only [write, space]
        omega
      · simp only [write]
        omega

theorem Page.column_lay_le (ownLine : Bool) (page : Page) (s : Setting) :
    (page.lay ownLine s).column ≤ page.column + s.piece.length + 1 := by
  have hopened : (if s.breakKept then page.newline else page).column ≤ page.column := by
    split
    · simp [newline]
    · exact Nat.le_refl _
  have hset := Page.column_set_le (if s.breakKept then page.newline else page) s.piece s.tokenClass
    s.breakKept s.breakMatters
  unfold lay
  cases ownLine && s.endsLine
  · simp only [Bool.false_eq_true, if_false]
    omega
  · simp [newline]

@[simp]
theorem Page.limit_set (page : Page) (text : Text) (c : TokenClass) (kept matters : Bool) :
    (page.set text c kept matters).limit = page.limit := by
  unfold Page.set
  split
  · rfl
  · split
    · rfl
    · split <;> rfl

@[simp]
theorem Page.limit_lay (ownLine : Bool) (page : Page) (s : Setting) :
    (page.lay ownLine s).limit = page.limit := by
  unfold lay
  cases s.breakKept <;> cases ownLine && s.endsLine <;> simp [newline]

theorem Setting.IsSound.length_le {s : Setting} (h : s.IsSound) :
    s.piece.length ≤ s.full.length := by
  by_cases hpiece : s.piece = s.full
  · rw [hpiece]
  · exact Nat.le_of_lt (h hpiece).shorter

/-- No line is broken for its length on a page with room for everything. -/
theorem text_foldl_lay_joined (ownLine : Bool) (page : Page) (plan : List Setting)
    (hsound : ∀ s ∈ plan, s.IsSound) (hroom : page.column + room plan ≤ page.limit) :
    (plan.foldl (Page.lay ownLine) page).text = page.text ++ page.joined ownLine plan := by
  induction plan generalizing page with
  | nil => simp [Page.joined]
  | cons s rest ih =>
    obtain ⟨hs, hsound⟩ := List.forall_mem_cons.1 hsound
    have hlength := hs.length_le
    simp only [room, List.map_cons, List.sum_cons] at hroom
    have hfits : page.overflows s.piece = false := by
      simp only [Page.overflows, Bool.and_eq_false_iff, decide_eq_false_iff_not]
      right
      omega
    have hgap : page.gapBefore s = page.joint s := by
      unfold Page.gapBefore Page.joint
      simp [hfits]
    have hcolumn := page.column_lay_le ownLine s
    have hrest := ih (page.lay ownLine s) hsound (by
      rw [Page.limit_lay]
      unfold room
      omega)
    rw [List.foldl_cons, hrest, Page.text_lay, hgap, Page.joined]
    simp

/-! ## Short spellings and dots -/

/-- The piece starts with a dot and stands on the line of the piece before it. -/
def Setting.leadsWithDot (s : Setting) : Bool := !s.breakKept && s.piece.head? == some '.'

/-- No dot is set right behind a short spelling. -/
def Setting.KeepsDotAway (s next : Setting) : Prop :=
  s.piece ≠ s.full → next.leadsWithDot = false

instance : DecidableRel Setting.KeepsDotAway := fun s next =>
  inferInstanceAs (Decidable (s.piece ≠ s.full → next.leadsWithDot = false))

/-- The second page shows the same as the first, but the digit of a short spelling at the end is
a number there. -/
structure Page.Matches (page again : Page) (short : Bool) : Prop where
  last : again.last = page.last
  integer : again.endsInInteger = (page.endsInInteger || short)
  digit : short = true → page.endsInInteger = false ∧ isOperator page.last = false

theorem Page.Matches.joint_eq {page again : Page} {short : Bool} (h : page.Matches again short)
    {s : Setting} (hs : short = true → s.leadsWithDot = false) : again.joint s = page.joint s := by
  unfold joint
  by_cases hkept : s.breakKept = true
  · simp [hkept]
  · have hspace : again.needsSpace s.piece = page.needsSpace s.piece := by
      unfold needsSpace
      cases hp : s.piece with
      | nil => rfl
      | cons c text =>
        by_cases hc : c = '.'
        · subst hc
          have hshort : short = false := by
            cases short
            · rfl
            · simp [Setting.leadsWithDot, hkept, hp] at hs
          simp [h.last, h.integer, hshort]
        · have hdot : (c == '.') = false := beq_false_of_ne hc
          simp only [h.last, hdot, Bool.and_false]
    rw [hspace]

theorem Page.Matches.joint_dot {page again : Page} (h : page.Matches again true) {s : Setting}
    (hs : s.leadsWithDot = true) :
    again.joint s = [' '] ∧ page.joint s = [] ∧ ∃ text, s.piece = '.' :: text := by
  obtain ⟨hinteger, hlast⟩ := h.digit rfl
  simp only [Setting.leadsWithDot, Bool.and_eq_true, Bool.not_eq_true', beq_iff_eq] at hs
  obtain ⟨hkept, hhead⟩ := hs
  obtain ⟨text, hpiece⟩ := List.head?_eq_some_iff.1 hhead
  have hdot : isOperator '.' = true := by decide
  refine ⟨?_, ?_, text, hpiece⟩
  · simp [joint, hkept, hpiece, needsSpace, h.integer]
  · simp [joint, hkept, hpiece, needsSpace, hinteger, hdot]

/-- A piece that is read back as it was written ends both pages in the same way. -/
theorem Page.Matches.lay {page again : Page} {short : Bool} (h : page.Matches again short)
    (ownLine : Bool) (s : Setting) :
    (page.lay ownLine s).Matches (again.lay ownLine s) false := by
  constructor
  · rw [last_lay, last_lay, h.last]
  · rw [endsInInteger_lay, endsInInteger_lay, Bool.or_false]
  · intro hshort
    cases hshort

/-- A short spelling that is read back as two tokens is joined again, and its digit is a number
of its own now. -/
theorem Page.Matches.joined_short {page again : Page} {short : Bool} (h : page.Matches again short)
    (ownLine : Bool) {s : Setting} (hne : s.piece ≠ s.full) (hs : s.IsShort)
    (rest : List Setting) :
    ∃ behind : Page, (page.lay ownLine s).Matches behind true ∧
      again.joined ownLine (s.reread ++ rest) =
        page.joint s ++ (s.piece ++ (s.lineEnd ownLine ++ behind.joined ownLine rest)) := by
  obtain ⟨d, hd, hpiece⟩ := hs.piece
  obtain ⟨hdigit, hinteger, hinteger'⟩ : isOperator d = false ∧ isPlainInteger [d] = true ∧
      isPlainInteger ['!', d] = false := by
    rcases hd with rfl | rfl <;> decide
  rw [Setting.reread_of_ne hne, hpiece]
  generalize hsign : (⟨['!', d].take 1, ['!', d].take 1, .unary, false, false, false⟩ : Setting) =
    sign
  generalize hnumber : (⟨['!', d].drop 1, ['!', d].drop 1, .literal, false, false, false⟩ :
    Setting) = number
  have hbefore : again.joint sign = page.joint s := by
    subst hsign
    simp [joint, hs.breakKept, hpiece, needsSpace, h.last]
  have hbetween : (again.lay ownLine sign).joint number = [] := by
    have hne : ('!' == d) = false := by rcases hd with rfl | rfl <;> decide
    have hop : isOperator '!' = true := by decide
    have hplain : isPlainInteger ['!'] = false := by decide
    subst hsign hnumber
    simp [joint, needsSpace, hne, hop, hplain]
  refine ⟨(again.lay ownLine sign).lay ownLine number, ⟨?_, ?_, ?_⟩, ?_⟩
  · subst hsign hnumber
    simp [hpiece]
  · subst hsign hnumber
    simp [hpiece, hinteger]
  · intro _
    simp [hpiece, hdigit, hinteger']
  · simp only [List.cons_append, List.nil_append, joined, hbefore, hbetween]
    subst hsign hnumber
    simp [Setting.lineEnd, hs.endsLine]

/-- A second run joins the pieces as the first one did, unless a dot follows a short spelling. -/
theorem joined_reread_iff (ownLine : Bool) {page again : Page} {short : Bool}
    (h : page.Matches again short) (plan : List Setting) (hsound : ∀ s ∈ plan, s.IsSound) :
    again.joined ownLine (plan.flatMap Setting.reread) = page.joined ownLine plan ↔
      (short = true → ∀ s ∈ plan.head?, s.leadsWithDot = false) ∧
        plan.IsChain Setting.KeepsDotAway := by
  induction plan generalizing page again short with
  | nil => simp [Page.joined]
  | cons s rest ih =>
    obtain ⟨hs, hsound⟩ := List.forall_mem_cons.1 hsound
    rw [List.flatMap_cons, List.isChain_cons, Page.joined]
    by_cases hdot : short = true ∧ s.leadsWithDot = true
    · -- The second page has a space where the first one has none.
      obtain ⟨rfl, hlead⟩ := hdot
      obtain ⟨hspace, hnone, text, hpiece⟩ := h.joint_dot hlead
      have hfull : s.piece = s.full := by
        by_contra hne
        obtain ⟨digit, _, hshort⟩ := (hs hne).piece
        simp [hpiece] at hshort
      constructor
      · intro heq
        rw [Setting.reread_of_eq hfull, List.singleton_append, Page.joined, hspace, hnone,
          hpiece] at heq
        simp at heq
      · rintro ⟨hhead, _⟩
        have := hhead rfl s (by simp)
        rw [hlead] at this
        cases this
    · have hlead : short = true → s.leadsWithDot = false := by
        intro hshort
        cases hlead : s.leadsWithDot
        · rfl
        · exact absurd ⟨hshort, hlead⟩ hdot
      have hhead : short = true → ∀ next ∈ (s :: rest).head?, next.leadsWithDot = false := by
        intro hshort next hnext
        obtain rfl : s = next := by simpa using hnext
        exact hlead hshort
      by_cases hfull : s.piece = s.full
      · rw [Setting.reread_of_eq hfull, List.singleton_append, Page.joined, h.joint_eq hlead,
          List.append_right_inj, List.append_right_inj, List.append_right_inj,
          ih (h.lay ownLine s) hsound]
        constructor
        · rintro ⟨_, hchain⟩
          exact ⟨hhead, fun next _ hne => absurd hfull hne, hchain⟩
        · rintro ⟨_, _, hchain⟩
          exact ⟨fun hshort => absurd hshort Bool.false_ne_true, hchain⟩
      · obtain ⟨behind, hmatches, hjoined⟩ :=
          h.joined_short ownLine hfull (hs hfull) (rest.flatMap Setting.reread)
        rw [hjoined, List.append_right_inj, List.append_right_inj, List.append_right_inj,
          ih hmatches hsound]
        constructor
        · rintro ⟨hnext, hchain⟩
          exact ⟨hhead, fun next hmem _ => hnext rfl next hmem, hchain⟩
        · rintro ⟨_, hkeeps, hchain⟩
          exact ⟨fun _ next hmem => hkeeps next hmem hfull, hchain⟩

/-! ## The room that a script takes -/

theorem room_reread_le {plan : List Setting} (hsound : ∀ s ∈ plan, s.IsSound) :
    room (plan.flatMap Setting.reread) ≤ room plan := by
  induction plan with
  | nil => exact Nat.le_refl _
  | cons s rest ih =>
    obtain ⟨hs, hsound⟩ := List.forall_mem_cons.1 hsound
    have hrest := ih hsound
    unfold room at hrest ⊢
    rw [List.flatMap_cons, List.map_append, List.sum_append, List.map_cons, List.sum_cons]
    by_cases hfull : s.piece = s.full
    · rw [Setting.reread_of_eq hfull]
      simp only [List.map_cons, List.map_nil, List.sum_cons, List.sum_nil]
      omega
    · have hshorter := (hs hfull).shorter
      obtain ⟨digit, _, hpiece⟩ := (hs hfull).piece
      have hlength : s.piece.length = 2 := by
        rw [hpiece]
        rfl
      rw [Setting.reread_of_ne hfull]
      simp only [List.map_cons, List.map_nil, List.sum_cons, List.sum_nil, List.length_take,
        List.length_drop]
      omega

theorem isSound_of_mem_reread {plan : List Setting} {s : Setting}
    (h : s ∈ plan.flatMap Setting.reread) : s.IsSound := by
  obtain ⟨t, _, hs⟩ := List.mem_flatMap.1 h
  by_cases hfull : t.piece = t.full
  · rw [Setting.reread_of_eq hfull] at hs
    obtain rfl := List.mem_singleton.1 hs
    exact fun hne => absurd hfull hne
  · rw [Setting.reread_of_ne hfull] at hs
    intro hne
    rcases List.mem_cons.1 hs with rfl | hs
    · exact absurd rfl hne
    · obtain rfl := List.mem_singleton.1 hs
      exact absurd rfl hne

theorem room_settings (draft : Draft) (read : List Token) :
    room (settings draft read) = (read.map fun token => token.text.length + 1).sum := by
  induction read generalizing draft with
  | nil => rfl
  | cons token rest ih =>
    have := ih (draft.after token (nextText rest))
    unfold room at this ⊢
    rw [settings, List.map_cons, List.sum_cons, this, List.map_cons, List.sum_cons]
    rfl

theorem sum_length_significant_le {read : List Token} (h : ∀ token ∈ read, token.text ≠ []) :
    ((read.filter Token.isSignificant).map fun token => token.text.length + 1).sum ≤
      2 * (read.flatMap Token.text).length := by
  induction read with
  | nil => exact Nat.le_refl _
  | cons token rest ih =>
    obtain ⟨htoken, hfilled⟩ := List.forall_mem_cons.1 h
    have hrest := ih hfilled
    have hpos := List.length_pos_iff.2 htoken
    rw [List.flatMap_cons, List.length_append, List.filter_cons]
    split
    · rw [List.map_cons, List.sum_cons]
      omega
    · omega

/-- A plan takes at most two characters for each byte of the script. -/
theorem room_plan_le {source : Text} {read : List Token} (h : tokens source = .ok read) :
    room (plan read) ≤ 2 * Text.byteSize source := by
  obtain ⟨hconsecutive, hspelled⟩ := consecutive_tokens h
  have hlength := sum_length_significant_le fun token hmem =>
    hconsecutive.text_ne_nil_of_mem hmem
  have hsize := Text.length_le_byteSize source
  rw [plan, room_settings]
  rw [hspelled] at hlength
  omega

/-! ## The law -/

theorem reread_eq_self {plan : List Setting} (h : ∀ s ∈ plan, s.piece = s.full) :
    plan.flatMap Setting.reread = plan := by
  induction plan with
  | nil => rfl
  | cons s rest ih =>
    obtain ⟨hs, hrest⟩ := List.forall_mem_cons.1 h
    rw [List.flatMap_cons, Setting.reread_of_eq hs, ih hrest]
    rfl

/-- On pages with room for everything, the plan of what is read back gives the text of the plan
itself if and only if no dot is set right behind a short spelling. -/
theorem planned_reread_iff {style : Style} {plan : List Setting}
    (hsound : ∀ s ∈ plan, s.IsSound) (hroom : room plan ≤ style.maxLineLength) :
    (planned style (plan.flatMap Setting.reread)).text = (planned style plan).text ↔
      plan.IsChain Setting.KeepsDotAway := by
  have hcolumn : (Page.blank style.maxLineLength).column = 0 := rfl
  have hlimit : (Page.blank style.maxLineLength).limit = style.maxLineLength := rfl
  have hreread := room_reread_le hsound
  have hmatches : (Page.blank style.maxLineLength).Matches (Page.blank style.maxLineLength) false :=
    ⟨rfl, rfl, fun h => absurd h Bool.false_ne_true⟩
  unfold planned
  rw [text_foldl_lay_joined _ _ _ hsound (by omega),
    text_foldl_lay_joined _ _ _ (fun _ => isSound_of_mem_reread) (by omega),
    List.append_right_inj, joined_reread_iff _ hmatches _ hsound]
  simp

/-- A second run gives what its style makes of the script, if the output of the first run is read
back as the tokens that were written, where they were written. That holds for every style if
nothing was shortened, and the output does not change at all if the style stays the same. If
something was shortened it holds for a style without long lines, as long as no dot is set right
behind a short spelling, and only then. No string takes `2 ^ 63` bytes. -/
theorem second_run_is_decided_by_its_style (source minified : Text) (read again : List Token)
    (first : Style) (hstyle : first.statementsOnOwnLine = false) (hread : tokens source = .ok read)
    (hminified : minifyText source first = .ok minified) (hagain : tokens minified = .ok again)
    (hplaces : (again.filter Token.isSignificant).map (fun token => (token.start, token.text)) =
      footprint 0 ((Page.blank first.maxLineLength).parts (plan read))) :
    ((∀ s ∈ plan read, s.piece = s.full) →
      (∀ second : Style, minifyText minified second = minifyText source second) ∧
      minifyText minified first = .ok minified) ∧
    (Text.byteSize source < 2 ^ 63 →
      ∀ second : Style, second.maxLineLength = 2 ^ 64 - 1 →
        (minifyText minified second = minifyText source second ↔
          (plan read).IsChain Setting.KeepsDotAway)) := by
  have hplan := plan_reread hstyle hread hminified hagain hplaces
  have hsource : ∀ second : Style,
      minifyText source second = .ok (planned second (plan read)).text := by
    intro second
    rw [minifyText_eq_map_planned, hread]
    rfl
  have hsecond : ∀ second : Style, minifyText minified second =
      .ok (planned second ((plan read).flatMap Setting.reread)).text := by
    intro second
    rw [minifyText_eq_map_planned, hagain, ← hplan]
    rfl
  refine ⟨?_, ?_⟩
  · intro hfull
    have hsame : ∀ second : Style, minifyText minified second = minifyText source second := by
      intro second
      rw [hsecond, hsource, reread_eq_self hfull]
    exact ⟨hsame, (hsame first).trans hminified⟩
  · intro hsize second hlimit
    have hroom := room_plan_le hread
    rw [hsecond, hsource, Except.ok.injEq]
    exact planned_reread_iff (fun _ => isSound_of_mem_settings) (by omega)

/-- A line that was broken behind a short spelling is joined again. -/
theorem broken_line_is_joined_by_the_second_run :
    minifyText "x=!0\n,y".toList ⟨2 ^ 64 - 1, false⟩ =
      minifyText "x=true,y".toList ⟨2 ^ 64 - 1, false⟩ := by
  have hread : tokens "x=true,y".toList = .ok
      [⟨.identifier, ['x'], 0, false⟩, ⟨.punctuator, ['='], 1, false⟩,
        ⟨.identifier, "true".toList, 2, false⟩, ⟨.punctuator, [','], 6, false⟩,
        ⟨.identifier, ['y'], 7, false⟩] :=
    eq_ok_of_toOption (by decide +kernel)
  have hagain : tokens "x=!0\n,y".toList = .ok
      [⟨.identifier, ['x'], 0, false⟩, ⟨.punctuator, ['='], 1, false⟩,
        ⟨.punctuator, ['!'], 2, false⟩, ⟨.number, ['0'], 3, false⟩,
        ⟨.lineBreak, ['\n'], 4, false⟩, ⟨.punctuator, [','], 5, true⟩,
        ⟨.identifier, ['y'], 6, false⟩] :=
    eq_ok_of_toOption (by decide +kernel)
  have hminified : minifyText "x=true,y".toList ⟨4, false⟩ = .ok "x=!0\n,y".toList :=
    eq_ok_of_toOption (by decide +kernel)
  have hlaw := second_run_is_decided_by_its_style _ _ _ _ ⟨4, false⟩ rfl hread hminified hagain
    (by decide +kernel)
  exact (hlaw.2 (by decide) ⟨2 ^ 64 - 1, false⟩ rfl).2 (by decide +kernel)

/-- With a dot behind the short spelling, the second run sets its digit apart from the dot. -/
theorem dot_behind_a_short_spelling_moves :
    ∃ read again, tokens "x=true ...y".toList = .ok read ∧
      minifyText "x=true ...y".toList ⟨4, false⟩ = .ok "x=!0\n...y".toList ∧
      tokens "x=!0\n...y".toList = .ok again ∧
      (again.filter Token.isSignificant).map (fun token => (token.start, token.text)) =
        footprint 0 ((Page.blank 4).parts (plan read)) ∧
      minifyText "x=!0\n...y".toList ⟨2 ^ 64 - 1, false⟩ = .ok "x=!0 ...y".toList ∧
      minifyText "x=true ...y".toList ⟨2 ^ 64 - 1, false⟩ = .ok "x=!0...y".toList := by
  have hread : tokens "x=true ...y".toList = .ok
      [⟨.identifier, ['x'], 0, false⟩, ⟨.punctuator, ['='], 1, false⟩,
        ⟨.identifier, "true".toList, 2, false⟩, ⟨.blank, [' '], 6, false⟩,
        ⟨.punctuator, "...".toList, 7, false⟩, ⟨.identifier, ['y'], 10, false⟩] :=
    eq_ok_of_toOption (by decide +kernel)
  have hagain : tokens "x=!0\n...y".toList = .ok
      [⟨.identifier, ['x'], 0, false⟩, ⟨.punctuator, ['='], 1, false⟩,
        ⟨.punctuator, ['!'], 2, false⟩, ⟨.number, ['0'], 3, false⟩,
        ⟨.lineBreak, ['\n'], 4, false⟩, ⟨.punctuator, "...".toList, 5, true⟩,
        ⟨.identifier, ['y'], 8, false⟩] :=
    eq_ok_of_toOption (by decide +kernel)
  refine ⟨_, _, hread, ?_, hagain, by decide +kernel, ?_, ?_⟩
  all_goals exact eq_ok_of_toOption (by decide +kernel)

end ScriptMinifier
