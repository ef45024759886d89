-- What a lexeme makes of the text behind it. Words and literals are read back from a page that
-- sets them apart, whatever comes next, with two exceptions: a regular expression takes in letters,
-- and a number that ends in a dot takes in more of a number.
import ScriptMinifier.Proofs.Literals
import ScriptMinifier.Proofs.Numbers

namespace ScriptMinifier.Lexeme

open Character

/-! ## Words -/

/-- The first character of a word tells that it is one. -/
theorem significant_of_startsWord {c : Char} (hc : startsWord c = true) (slash : Slash)
    (text : Text) :
    significant slash (c :: text) =
      (wordKind (c :: text.takeWhile fun c => !isWordBreak c),
        { length := (c :: text.takeWhile fun c => !isWordBreak c).length }) := by
  simp only [startsWord, Bool.and_eq_true, Bool.not_eq_true'] at hc
  obtain ⟨hoperator, hdigit⟩ := hc
  have hne : ∀ d, isOperator d = true → (c == d) = false := by
    intro d hd
    apply beq_false_of_ne
    rintro rfl
    rw [hd] at hoperator
    cases hoperator
  have hquote : isQuote c = false := by
    unfold isQuote
    rw [hne '\'' (by decide), hne '"' (by decide)]
    rfl
  have hnumber : number? (c :: text) = none := by
    cases hn : number? (c :: text) with
    | none => rfl
    | some scan => rcases isOperator_or_isDigit_of_number? hn with h | h <;> simp_all
  have hmark : longestPunctuator? (c :: text) = none := by
    cases hl : longestPunctuator? (c :: text) with
    | none => rfl
    | some mark =>
      rw [isOperator_of_longestPunctuator? hl] at hoperator
      cases hoperator
  have hword : word (c :: text) =
      { length := (c :: text.takeWhile fun c => !isWordBreak c).length } := by
    simp [word, Nat.add_comm]
  have hlexeme : (word (c :: text)).lexeme (c :: text) =
      c :: text.takeWhile fun c => !isWordBreak c := by
    rw [hword, Scan.lexeme, List.length_cons, List.take_succ_cons, take_takeWhile_length]
  simp only [significant, hquote, hne '`' (by decide), hne '/' (by decide), hnumber,
    punctuatorOrWord, hmark, hlexeme, Bool.false_and, Bool.false_eq_true, if_false]
  rw [hword]

/-- A word is read back where a blank or an operator stands behind it. -/
theorem exists_body_of_word {c : Char} (hc : startsWord c = true) (slash : Slash) (text : Text) :
    ∃ run tail, text = run ++ tail ∧
      significant slash (c :: text) = (wordKind (c :: run), { length := (c :: run).length }) ∧
      (∀ d ∈ (c :: run).getLast?, isOperator d = false) ∧
      ∀ behind, StopsWord behind →
        significant slash (c :: (run ++ behind)) =
          (wordKind (c :: run), { length := (c :: run).length }) := by
  refine ⟨text.takeWhile fun c => !isWordBreak c, text.dropWhile fun c => !isWordBreak c, by simp,
    significant_of_startsWord hc slash text, ?_, ?_⟩
  · intro d hd
    rcases List.mem_cons.1 (List.mem_of_mem_getLast? hd) with rfl | hd
    · simp_all [startsWord]
    · have := List.all_eq_true.1 List.all_takeWhile d hd
      simp_all [isWordBreak]
  · intro behind hb
    have hnil : behind.takeWhile (fun c => !isWordBreak c) = [] :=
      takeWhile_eq_nil (by simpa [StopsWord] using hb)
    have hrun : (text.takeWhile (fun c => !isWordBreak c) ++ behind).takeWhile
        (fun c => !isWordBreak c) = text.takeWhile fun c => !isWordBreak c := by
      rw [List.takeWhile_append_of_pos (List.all_eq_true.1 List.all_takeWhile), hnil,
        List.append_nil]
    rw [significant_of_startsWord hc, hrun]

/-! ## Any lexeme -/

/-- Whether a lexeme takes in what stands right behind it, or part of it. A regular expression
takes in letters as its flags. A number that ends in a dot takes in a digit or an exponent, and
cannot be read before two more dots. -/
def takesIn (kind : TokenKind) (text behind : Text) : Bool :=
  match kind with
  | .regex => behind.head?.any isRegexFlag
  | .number => text.getLast? == some '.' && extendsPoint behind
  | _ => false

theorem takesIn_nil (kind : TokenKind) (text : Text) : takesIn kind text [] = false := by
  unfold takesIn
  split
  · rfl
  · simp [extendsPoint]
  · rfl

/-- The lexeme is read back from a page, unless it takes in what stands behind it there. -/
def ReadsBack (slash : Slash) (kind : TokenKind) (scan : Scan) (text : Text) : Prop :=
  ∀ behind, SetApart text behind → ∃ again,
    significant slash (text ++ behind) = (kind, again) ∧
      if takesIn kind text behind then again.GoesPast text.length else again = scan

theorem readsBack_word {c : Char} (hc : startsWord c = true) (slash : Slash) (text : Text) :
    ∃ body tail, text = body ++ tail ∧
      (significant slash (c :: text)).2.length = (c :: body).length ∧
      ReadsBack slash (significant slash (c :: text)).1 (significant slash (c :: text)).2
        (c :: body) := by
  obtain ⟨run, tail, rfl, hscan, hlast, hstable⟩ := exists_body_of_word hc slash text
  have htakes : ∀ behind, takesIn (wordKind (c :: run)) (c :: run) behind = false := by
    intro behind
    unfold wordKind
    split <;> rfl
  rw [hscan]
  refine ⟨run, tail, rfl, rfl, fun behind hb => ⟨_, hstable behind (hb.word hlast), ?_⟩⟩
  rw [htakes]
  rfl

theorem readsBack_regex {text : Text} (hf : (regex ('/' :: text)).fault = none) :
    ∃ body tail, text = body ++ tail ∧ (regex ('/' :: text)).length = ('/' :: body).length ∧
      body ≠ [] ∧ ReadsBack .regex .regex (regex ('/' :: text)) ('/' :: body) := by
  obtain ⟨body, tail, rfl, hscan, hbehind⟩ := exists_body_of_regexFrom hf
  have hregex : ∀ behind, regex ('/' :: (body ++ behind)) =
      { length := ('/' :: body).length + (behind.takeWhile isRegexFlag).length } := by
    intro behind
    rw [List.length_cons, Nat.add_comm body.length]
    exact hbehind behind
  have hlength : regex ('/' :: (body ++ tail)) = { length := ('/' :: body).length } := by
    rw [List.length_cons, Nat.add_comm body.length]
    exact hscan
  rw [hlength]
  refine ⟨body, tail, rfl, rfl, ?_, fun behind _ => ⟨regex ('/' :: (body ++ behind)), rfl, ?_⟩⟩
  · rintro rfl
    have := congrArg Scan.fault (hbehind [])
    cases this
  · rw [hregex]
    cases behind with
    | nil => rfl
    | cons d behind =>
      cases hd : isRegexFlag d with
      | true => simp [takesIn, hd, Scan.GoesPast]
      | false => simp [takesIn, hd]

/-- A literal that ends by itself is read back wherever it stands. -/
theorem Delimits.readsBack {slash : Slash} {c : Char} {kind : TokenKind} {inner : Text → Scan}
    (hscan : ∀ text, significant slash (c :: text) = (kind, inner text))
    (hkind : kind = .string ∨ kind = .template) {body tail : Text}
    (h : Delimits inner 1 body tail) :
    ReadsBack slash kind (inner (body ++ tail)) (c :: body) := by
  intro behind _
  refine ⟨inner (body ++ behind), hscan _, ?_⟩
  have htakes : takesIn kind (c :: body) behind = false := by
    rcases hkind with rfl | rfl <;> rfl
  rw [htakes]
  exact h.stable behind

theorem readsBack_number {slash : Slash} {c : Char} {text : Text} {scan : Scan}
    (hscan : ∀ text again, number? (c :: text) = some again →
      significant slash (c :: text) = (.number, again))
    (h : number? (c :: text) = some scan) (hf : scan.fault = none) :
    ∃ body tail, text = body ++ tail ∧ scan.length = (c :: body).length ∧
      ReadsBack slash .number scan (c :: body) := by
  obtain ⟨body, tail, htext, hlength, hbehind⟩ := exists_body_of_number? h hf
  have hpos := length_number?_pos h
  have hfilled : body ≠ [] := by
    rintro rfl
    rw [hlength] at hpos
    cases hpos
  obtain ⟨d, body, rfl⟩ := List.exists_cons_of_ne_nil hfilled
  obtain ⟨rfl, rfl⟩ := List.cons.inj htext
  refine ⟨body, tail, rfl, by rw [hlength], fun behind hb => ?_⟩
  obtain ⟨again, hagain, hsame⟩ := hbehind behind hb
  refine ⟨again, hscan _ again hagain, ?_⟩
  simpa only [takesIn, Bool.and_eq_true, beq_iff_eq] using hsame

/-- A significant lexeme other than a punctuator is read back from a page unless it takes in what
stands behind it. -/
theorem exists_readsBack {slash : Slash} {c : Char} {text : Text} {kind : TokenKind}
    {scan : Scan} (h : significant slash (c :: text) = (kind, scan)) (hk : kind ≠ .punctuator)
    (hf : scan.fault = none) :
    ∃ body tail, text = body ++ tail ∧ scan.length = (c :: body).length ∧
      (kind = .regex → body ≠ []) ∧ ReadsBack slash kind scan (c :: body) := by
  have hsignificant : ∀ text, significant slash (c :: text) =
      if isQuote c then (.string, quotedFrom c 1 text)
      else if c == '`' then (.template, templateFrom 0 1 false text)
      else if c == '/' && slash == .regex then (.regex, regex (c :: text))
      else (number? (c :: text)).elim (punctuatorOrWord (c :: text)) (TokenKind.number, ·) := by
    intro text
    rw [significant]
    cases number? (c :: text) <;> rfl
  by_cases hquote : isQuote c = true
  · simp only [hquote, if_true] at hsignificant
    rw [hsignificant] at h
    cases h
    obtain ⟨body, tail, rfl, hbody⟩ := exists_delimits_quotedFrom hf
    refine ⟨body, tail, rfl, ?_, by simp, hbody.readsBack hsignificant (Or.inl rfl)⟩
    rw [hbody.length, List.length_cons, Nat.add_comm]
  by_cases htick : (c == '`') = true
  · simp only [hquote, htick, if_true, if_false, Bool.false_eq_true] at hsignificant
    rw [hsignificant] at h
    cases h
    obtain ⟨body, tail, rfl, hbody⟩ := exists_delimits_templateFrom hf
    refine ⟨body, tail, rfl, ?_, by simp, hbody.readsBack hsignificant (Or.inr rfl)⟩
    rw [hbody.length, List.length_cons, Nat.add_comm]
  by_cases hslash : (c == '/' && slash == .regex) = true
  · simp only [hquote, htick, hslash, if_true, if_false, Bool.false_eq_true] at hsignificant
    obtain ⟨rfl, rfl⟩ : c = '/' ∧ slash = .regex := by simpa using hslash
    rw [hsignificant] at h
    cases h
    obtain ⟨body, tail, htext, hlength, hfilled, hback⟩ := readsBack_regex hf
    exact ⟨body, tail, htext, hlength, fun _ => hfilled, hback⟩
  simp only [hquote, htick, hslash, if_false, Bool.false_eq_true] at hsignificant
  cases hnumber : number? (c :: text) with
  | some number =>
    rw [hsignificant, hnumber, Option.elim_some] at h
    cases h
    have hscan : ∀ text again, number? (c :: text) = some again →
        significant slash (c :: text) = (.number, again) := by
      intro text again hagain
      rw [hsignificant, hagain, Option.elim_some]
    obtain ⟨body, tail, htext, hlength, hback⟩ := readsBack_number hscan hnumber hf
    exact ⟨body, tail, htext, hlength, by simp, hback⟩
  | none =>
    have hkind : kind.isWord = true := by
      simp only [hsignificant, hnumber, Option.elim_none, punctuatorOrWord] at h
      split at h
      · cases h
        exact absurd rfl hk
      · cases h
        unfold wordKind
        split <;> rfl
    have hstart : startsWord c = true := by
      rw [← (kind_significant slash c text).2, h, hkind]
    obtain ⟨body, tail, htext, hlength, hback⟩ := readsBack_word hstart slash text
    rw [h] at hlength hback
    refine ⟨body, tail, htext, hlength, ?_, hback⟩
    rintro rfl
    cases hkind

/-! ## Comments -/

theorem kind_punctuatorOrWord {c : Char} (text : Text) (h : [c] ∈ punctuators) :
    (punctuatorOrWord (c :: text)).1 = .punctuator := by
  unfold punctuatorOrWord
  split
  · rfl
  · next hnone => exact absurd hnone (longestPunctuator?_of_mem text h)

/-- The marks that a comment can start with are punctuators, but a slash can also start a regular
expression. -/
theorem starts_of_kind_ne_punctuator {slash : Slash} {c : Char} {text : Text}
    (hk : (significant slash (c :: text)).1 ≠ .punctuator) :
    c ≠ '<' ∧ c ≠ '-' ∧ (c = '/' → (significant slash (c :: text)).1 = .regex) := by
  refine ⟨?_, ?_, ?_⟩
  · rintro rfl
    exact hk (kind_punctuatorOrWord text (by decide))
  · rintro rfl
    exact hk (kind_punctuatorOrWord text (by decide))
  · rintro rfl
    cases slash with
    | regex => rfl
    | division => exact absurd (kind_punctuatorOrWord text (by decide)) hk

theorem startsComment_cons {c : Char} (hless : c ≠ '<') (hminus : c ≠ '-') (atLineStart : Bool)
    (text : Text) :
    (startsBlockComment (c :: text) || startsLineComment atLineStart (c :: text)) =
      ('/' == c && text.head?.any fun d => '*' == d || '/' == d) := by
  have hc : ('<' == c) = false ∧ ('-' == c) = false :=
    ⟨beq_false_of_ne hless.symm, beq_false_of_ne hminus.symm⟩
  cases text <;>
    simp [startsBlockComment, startsLineComment, List.isPrefixOf, hc, Bool.and_or_distrib_left]

theorem scan_of_no_comment {slash : Slash} {atLineStart : Bool} {c : Char} {text : Text}
    (hblank : isBlank c = false)
    (hcomment : (startsBlockComment (c :: text) || startsLineComment atLineStart (c :: text)) =
      false) :
    scan slash atLineStart (c :: text) = significant slash (c :: text) := by
  obtain ⟨hblock, hline⟩ := Bool.or_eq_false_iff.1 hcomment
  simp [scan, hblank, hblock, hline]

theorem no_comment_of_isSignificant {slash : Slash} {atLineStart : Bool} {c : Char} {text : Text}
    (h : (scan slash atLineStart (c :: text)).1.isSignificant = true) :
    isBlank c = false ∧
      (startsBlockComment (c :: text) || startsLineComment atLineStart (c :: text)) = false := by
  rw [scan] at h
  split at h
  · dsimp only at h
    split at h <;> cases h
  split at h
  · cases h
  split at h
  · cases h
  · simp_all

/-- A significant lexeme other than a punctuator is read back from a page unless it takes in what
stands behind it. No comment starts in its place, whatever stands before it. -/
theorem exists_reread {slash : Slash} {atLineStart : Bool} {text : Text} {kind : TokenKind}
    {found : Scan} (h : scan slash atLineStart text = (kind, found))
    (hk : kind.isSignificant = true) (hp : kind ≠ .punctuator) (hf : found.fault = none) :
    found.length = (found.lexeme text).length ∧
      ∀ behind, SetApart (found.lexeme text) behind → ∀ atLineStart', ∃ again,
        scan slash atLineStart' (found.lexeme text ++ behind) = (kind, again) ∧
        if takesIn kind (found.lexeme text) behind then again.GoesPast (found.lexeme text).length
        else again = found := by
  cases text with
  | nil =>
    cases h
    cases hk
  | cons c text =>
    obtain ⟨hblank, hcomment⟩ := no_comment_of_isSignificant (by rw [h]; exact hk)
    rw [scan_of_no_comment hblank hcomment] at h
    obtain ⟨hless, hminus, hslash⟩ := starts_of_kind_ne_punctuator (by rw [h]; exact hp)
    obtain ⟨body, tail, rfl, hlength, hregex, hback⟩ := exists_readsBack h hp hf
    have hlexeme : found.lexeme (c :: (body ++ tail)) = c :: body := by
      rw [Scan.lexeme, hlength, ← List.cons_append]
      exact List.take_left' rfl
    rw [hlexeme]
    refine ⟨hlength, fun behind hb atLineStart' => ?_⟩
    obtain ⟨again, hagain, hsame⟩ := hback behind hb
    refine ⟨again, ?_, hsame⟩
    rw [← hagain]
    apply scan_of_no_comment hblank
    rw [startsComment_cons hless hminus] at hcomment ⊢
    -- A slash starts a regular expression, and the character behind it belongs to that.
    cases body with
    | nil =>
      have hc : c ≠ '/' := by
        intro hc
        have hkind := hslash hc
        rw [h] at hkind
        exact hregex hkind rfl
      simp [Ne.symm hc]
    | cons d body => exact hcomment

end ScriptMinifier.Lexeme
