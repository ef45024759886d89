-- Line breaks behind `return` and its kind. A break there ends the statement, so it has to stay
-- and none may be added. The tracker knows this where the word starts a statement. Behind an
-- operand on the same line, which is how it sees the body of a class, it takes the word for part
-- of an expression and loses the break before a sign or a parenthesis.
import ScriptMinifier.Proofs.Regions
import ScriptMinifier.Proofs.Trace

namespace ScriptMinifier

open Character

/-! ## Breaks in a gap -/

/-- A break that matters stands in a gap only if it was kept. Any other break is there because the
line would have grown too long. -/
theorem Page.newline_mem_gapBefore_iff (page : Page) {s : Setting}
    (h : s.breakKept = true → s.breakMatters = true) :
    '\n' ∈ page.gapBefore s ↔
      if s.breakMatters then s.breakKept = true
      else page.overflows s.piece = true ∧ s.tokenClass ≠ .increment ∧ s.tokenClass ≠ .arrow := by
  unfold gapBefore
  cases hmatters : s.breakMatters with
  | true =>
    cases s.breakKept
    · simp only [Bool.false_eq_true, if_false, Bool.not_true, Bool.and_false, Bool.false_and,
        if_true, iff_false]
      split <;> simp
    · simp
  | false =>
    have hkept : s.breakKept = false := by
      cases hk : s.breakKept
      · rfl
      · rw [h hk] at hmatters
        cases hmatters
    simp only [hkept, Bool.false_eq_true, if_false, Bool.not_false, Bool.and_true]
    split
    · simp_all
    · next hwrap =>
      constructor
      · intro hmem
        split at hmem <;> simp at hmem
      · rintro ⟨hoverflows, hincrement, harrow⟩
        simp [hoverflows, hincrement, harrow] at hwrap

/-! ## Places behind a jump -/

/-- The classes that the operand of a jump can start with. -/
def startsOperand (c : TokenClass) : Bool :=
  [.unary, .increment, .additive, .braceOpen, .parenOpen, .function, .literal].contains c

/-- Whether a jump that is met at this place keeps apart from an operand on the next line. It does
at the start of a statement. Behind an operand it is not seen as a jump, but there a line break
matters before most operands too. -/
def Place.guardsJump (place : Place) (c : TokenClass) : Bool :=
  place == .statement || place == .restricted ||
    (place == .expression .plain .operator && c != .additive && c != .parenOpen)

theorem Place.breaksBefore_next_jump {place : Place} {c : TokenClass}
    (hc : startsOperand c = true) :
    (place.next .jump).breaksBefore c = place.guardsJump c := by
  revert place c
  decide +kernel

theorem Tracker.place_advance_jump (tracker : Tracker) :
    (tracker.advance .jump).place = tracker.place.next .jump := by
  have hinert : ∀ place : Place, place.resume? .jump = none ∧ place.closes .jump = false := by
    decide +kernel
  obtain ⟨hopens, hcloses⟩ := hinert tracker.place
  rw [advance_of_inert _ hopens hcloses]

/-- What is decided about a token behind a jump. -/
theorem Draft.setting_behind_jump (draft : Draft) {jump : Token} (token : Token)
    (next : Option Text) (hjump : draft.tokenClass jump = .jump)
    (hoperand : startsOperand (token.classAfter (some jump)) = true) :
    let s := (draft.after jump (some token.text)).setting token next
    s.tokenClass = token.classAfter (some jump) ∧
      s.breakMatters = (draft.tracker.meets .jump jump.followsBreak).place.guardsJump
        (token.classAfter (some jump)) ∧
      s.breakKept = (token.followsBreak && s.breakMatters) := by
  intro s
  refine ⟨rfl, ?_, rfl⟩
  show (draft.after jump (some token.text)).tracker.place.breaksBefore _ = _
  rw [tracker_after, hjump, Tracker.read_eq_advance_meets, Tracker.place_advance_jump]
  exact Place.breaksBefore_next_jump hoperand

/-! ## The law -/

/-- Between `break`, `continue`, `return` or `throw` and an operand behind it, the minified script
has a line break if and only if the source has one, wherever the word is met at the start of a
statement, and behind an operand if no sign and no parenthesis follows. Everywhere else the source
has no say: a break is there if and only if the line would grow too long and no `++` or `--`
follows. -/
theorem break_behind_a_jump_iff {source : Text} {read : List Token} {style : Style}
    (hstyle : style.statementsOnOwnLine = false) (hread : tokens source = .ok read)
    {before after : List (Tracker × Token)} {tracker next : Tracker} {jump token : Token}
    (hlog : (Reader.ofText source).log = before ++ (tracker, jump) :: (next, token) :: after)
    (hjump : jump.classAfter (before.getLast?.map Prod.snd) = .jump)
    (hoperand : startsOperand (token.classAfter (some jump)) = true) :
    let page := planned style ((plan read).take (before.length + 1))
    ∃ (s : Setting) (ahead behind : Text), (plan read)[before.length + 1]? = some s ∧
      page.text = ahead ++ jump.text ∧
      minifyText source style = .ok (page.text ++ page.gapBefore s ++ (s.piece ++ behind)) ∧
      ('\n' ∈ page.gapBefore s ↔
        if (tracker.meets .jump jump.followsBreak).place.guardsJump (token.classAfter (some jump))
        then (Text.slice source jump.stop token.start).any isLineTerminator = true
        else page.overflows s.piece = true ∧ token.classAfter (some jump) ≠ .increment) := by
  intro page
  obtain ⟨here, htracker, hprevious, hplan⟩ := plan_of_log hread hlog
  have hclass : here.tokenClass jump = .jump := by
    unfold Draft.tokenClass
    rw [hprevious, hjump]
  obtain ⟨hoperandClass, hmatters, hkept⟩ :=
    here.setting_behind_jump token (nextText (after.map Prod.snd)) hclass hoperand
  have hfirst : (plan read)[before.length]? = some (here.setting jump (some token.text)) := hplan 0
  have hsecond : (plan read)[before.length + 1]? = some ((here.after jump (some token.text)).setting
      token (nextText (after.map Prod.snd))) := hplan 1
  generalize (here.after jump (some token.text)).setting token (nextText (after.map Prod.snd)) = s
    at hsecond hoperandClass hmatters hkept
  have hpiece : here.piece jump (some token.text) = jump.text := by
    apply Draft.piece_of_class_ne_literal
    rw [hclass]
    decide
  obtain ⟨ahead, hahead⟩ : ∃ ahead, page.text = ahead ++ jump.text := by
    show ∃ ahead, (planned style ((plan read).take (before.length + 1))).text = ahead ++ jump.text
    rw [planned_take_succ style hfirst, hstyle, Page.text_lay, Draft.piece_setting, hpiece,
      Setting.lineEnd, Bool.false_and, if_neg (by decide), List.append_nil]
    exact ⟨_, rfl⟩
  refine ⟨s, ahead, _, hsecond, hahead, minifyText_eq_append hread style hsecond, ?_⟩
  have hbreak : token.followsBreak =
      (Text.slice source jump.stop token.start).any isLineTerminator := by
    have htokens : read.filter Token.isSignificant =
        before.map Prod.snd ++ jump :: token :: after.map Prod.snd := by
      rw [← Reader.map_log hread]
      exact (congrArg (List.map Prod.snd) hlog).trans (by simp)
    exact followsBreak_eq_any_slice hread htokens
  have harrow : token.classAfter (some jump) ≠ .arrow := by
    intro harrow
    rw [harrow] at hoperand
    cases hoperand
  rw [page.newline_mem_gapBefore_iff (by simp [hkept]), hkept, hmatters, htracker, hoperandClass,
    ← hbreak]
  cases (tracker.meets .jump jump.followsBreak).place.guardsJump (token.classAfter (some jump))
  · simp [harrow]
  · simp

/-- The break behind a `return` in a block is kept. -/
theorem break_in_a_block_is_kept :
    ∃ (page : Page) (s : Setting) (ahead behind : Text), page.text = ahead ++ "return".toList ∧
      minifyText "\x7breturn\n+1\x7d".toList .usual =
        .ok (page.text ++ page.gapBefore s ++ (s.piece ++ behind)) ∧ '\n' ∈ page.gapBefore s := by
  have hread : tokens "\x7breturn\n+1\x7d".toList = .ok
      [⟨.punctuator, ['{'], 0, false⟩, ⟨.keyword, "return".toList, 1, false⟩,
        ⟨.lineBreak, ['\n'], 7, false⟩, ⟨.punctuator, ['+'], 8, true⟩,
        ⟨.number, ['1'], 9, false⟩, ⟨.punctuator, ['}'], 10, false⟩] :=
    eq_ok_of_toOption (by decide +kernel)
  have hlog : (Reader.ofText "\x7breturn\n+1\x7d".toList).log =
      [(.start, ⟨.punctuator, ['{'], 0, false⟩)] ++
        (⟨.statement, [⟨.block, .statement⟩]⟩, ⟨.keyword, "return".toList, 1, false⟩) ::
        (⟨.restricted, [⟨.block, .statement⟩]⟩, ⟨.punctuator, ['+'], 8, true⟩) ::
        (Reader.ofText "\x7breturn\n+1\x7d".toList).log.drop 3 := by decide +kernel
  obtain ⟨s, ahead, behind, _, hahead, hminified, hbreak⟩ :=
    break_behind_a_jump_iff (rfl : Style.usual.statementsOnOwnLine = false) hread hlog (by decide)
      (by decide)
  refine ⟨_, s, ahead, behind, hahead, hminified, hbreak.2 ?_⟩
  rw [if_pos (by decide)]
  decide

/-- The break behind a `return` in the body of a class is lost, and so `return;+1` becomes
`return+1`. -/
theorem break_in_a_class_body_is_lost :
    ∃ (before after : List (Tracker × Token)) (tracker next : Tracker) (jump token : Token),
      (Reader.ofText "class A\x7bm()\x7breturn\n+1\x7d\x7d".toList).log =
        before ++ (tracker, jump) :: (next, token) :: after ∧
      jump.classAfter (before.getLast?.map Prod.snd) = .jump ∧ tracker.place ≠ .key ∧
      token.classAfter (some jump) = .additive ∧
      (Text.slice "class A\x7bm()\x7breturn\n+1\x7d\x7d".toList jump.stop token.start).any
        isLineTerminator = true ∧
      minifyText "class A\x7bm()\x7breturn\n+1\x7d\x7d".toList .usual =
        .ok "class A\x7bm()\x7breturn+1\x7d\x7d".toList := by
  refine ⟨(Reader.ofText "class A\x7bm()\x7breturn\n+1\x7d\x7d".toList).log.take 7,
    (Reader.ofText "class A\x7bm()\x7breturn\n+1\x7d\x7d".toList).log.drop 9,
    ⟨.expression .plain .operator, []⟩, ⟨.expression .plain .operator, []⟩,
    ⟨.keyword, "return".toList, 12, false⟩, ⟨.punctuator, ['+'], 19, true⟩, ?_, ?_, ?_, ?_, ?_, ?_⟩
  · decide +kernel
  · decide +kernel
  · decide
  · decide
  · decide +kernel
  · exact eq_ok_of_toOption (by decide +kernel)

end ScriptMinifier
