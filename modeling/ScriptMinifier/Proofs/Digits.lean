-- The digits of a number. A run of digits, and an exponent with it, ends in a digit or a letter,
-- and it is read the same whatever follows, as long as that starts with a blank or an operator.
import ScriptMinifier.Proofs.Tokens

namespace ScriptMinifier.Lexeme

open Character

/-! ## Ends and starts -/

theorem mem_head?_append {front behind : Text} {c : Char} (h : c ∈ (front ++ behind).head?) :
    c ∈ front.head? ∨ front = [] ∧ c ∈ behind.head? := by
  cases front with
  | nil => exact Or.inr ⟨rfl, h⟩
  | cons d front => exact Or.inl h

theorem mem_getLast?_append {front behind : Text} {c : Char}
    (h : c ∈ (front ++ behind).getLast?) :
    c ∈ behind.getLast? ∨ behind = [] ∧ c ∈ front.getLast? := by
  rw [List.getLast?_append] at h
  cases hlast : behind.getLast? with
  | none =>
    rw [hlast, Option.none_or] at h
    exact Or.inr ⟨by simpa using hlast, h⟩
  | some d =>
    rw [hlast, Option.some_or] at h
    exact Or.inl h

theorem takeWhile_eq_nil {p : Char → Bool} {text : Text} (h : ∀ c ∈ text.head?, p c = false) :
    text.takeWhile p = [] := by
  cases text with
  | nil => rfl
  | cons c text => exact List.takeWhile_cons_of_neg (by simp [h c rfl])

/-- The text starts with a blank or an operator, if with anything. -/
def StopsWord (text : Text) : Prop := ∀ c ∈ text.head?, isWordBreak c = true

/-- No blank and no operator can be part of a number or a flag. -/
theorem not_alphanumeric_of_isWordBreak {c : Char} (h : isWordBreak c = true) :
    isRegexFlag c = false ∧ isDigit c = false ∧ c ≠ '_' := by
  have hall : (['\t', '\n', '\x0b', '\x0c', '\r', ' '] ++ operators).all (fun d =>
      decide (isRegexFlag d = false ∧ isDigit d = false ∧ d ≠ '_')) = true := by decide
  have hmem : c ∈ ['\t', '\n', '\x0b', '\x0c', '\r', ' '] ++ operators := by
    simpa [isWordBreak, isBlank, isOperator, or_assoc] using h
  exact of_decide_eq_true (List.all_eq_true.1 hall c hmem)

theorem StopsWord.ne_letter {text : Text} (h : StopsWord text) {letter : Char}
    (hletter : isRegexFlag letter = true) : ∀ c ∈ text.head?, c ≠ letter := by
  rintro c hc rfl
  rw [(not_alphanumeric_of_isWordBreak (h c hc)).1] at hletter
  cases hletter

theorem getLast?_ne_dot {body : Text} (h : ∀ c ∈ body.getLast?, isOperator c = false) :
    body.getLast? ≠ some '.' := by
  intro hdot
  have := h '.' hdot
  cases this

/-! ## Digits -/

/-- Digits of one sort are decimal digits or letters. -/
def Alphanumeric (accepts : Char → Bool) : Prop :=
  ∀ c, accepts c = true → isDigit c = true ∨ isRegexFlag c = true

theorem alphanumeric_isDigit : Alphanumeric isDigit := fun _ h => Or.inl h

theorem Alphanumeric.not_accepts {accepts : Char → Bool} (h : Alphanumeric accepts) {c : Char}
    (hc : isWordBreak c = true) : accepts c = false := by
  obtain ⟨hflag, hdigit, _⟩ := not_alphanumeric_of_isWordBreak hc
  cases ha : accepts c with
  | false => rfl
  | true => rcases h c ha with hc | hc <;> simp_all

/-- The text does not start with a digit or an underscore. -/
def StopsDigits (accepts : Char → Bool) (text : Text) : Prop :=
  ∀ c ∈ text.head?, accepts c = false ∧ c ≠ '_'

theorem StopsWord.stopsDigits {accepts : Char → Bool} (ha : Alphanumeric accepts) {text : Text}
    (h : StopsWord text) : StopsDigits accepts text := by
  intro c hc
  exact ⟨ha.not_accepts (h c hc), (not_alphanumeric_of_isWordBreak (h c hc)).2.2⟩

theorem digitRun_of_stops {accepts : Char → Bool} {text : Text} (h : StopsDigits accepts text)
    (read : Nat) : digitRun accepts read text = read := by
  cases text with
  | nil => rfl
  | cons c text =>
    obtain ⟨hdigit, hc⟩ := h c rfl
    rw [digitRun] <;> simp [hdigit, hc]

theorem exists_body_of_digitRun (accepts : Char → Bool) (read : Nat) (text : Text) :
    ∃ body tail, text = body ++ tail ∧ digitRun accepts read text = read + body.length ∧
      (∀ c ∈ body, accepts c = true ∨ c = '_') ∧
      ∀ behind, StopsDigits accepts behind →
        digitRun accepts read (body ++ behind) = read + body.length := by
  fun_induction digitRun accepts read text with
  | case1 read => exact ⟨[], [], rfl, rfl, by simp, fun _ hb => digitRun_of_stops hb read⟩
  | case2 read => exact ⟨[], _, rfl, rfl, by simp, fun _ hb => digitRun_of_stops hb read⟩
  | case3 read c text hdigit ih =>
    obtain ⟨body, tail, rfl, hlength, hall, hstable⟩ := ih
    refine ⟨'_' :: c :: body, tail, rfl, ?_, ?_, fun behind hb => ?_⟩
    · simp only [hlength, List.length_cons]
      omega
    · simp_all
    · simp only [List.cons_append, digitRun, hdigit, if_true, hstable behind hb, List.length_cons]
      omega
  | case4 read => exact ⟨[], _, rfl, rfl, by simp, fun _ hb => digitRun_of_stops hb read⟩
  | case5 read c text hend hunder hdigit ih =>
    have hc : c ≠ '_' := by
      intro hc
      cases text with
      | nil => exact hend hc rfl
      | cons d text => exact hunder d text hc rfl
    obtain ⟨body, tail, rfl, hlength, hall, hstable⟩ := ih
    refine ⟨c :: body, tail, rfl, ?_, ?_, fun behind hb => ?_⟩
    · simp only [hlength, List.length_cons]
      omega
    · simp_all
    · rw [List.cons_append, digitRun, if_pos hdigit, hstable behind hb, List.length_cons]
      · omega
      · simp [hc]
      · simp [hc]
  | case6 read => exact ⟨[], _, rfl, rfl, by simp, fun _ hb => digitRun_of_stops hb read⟩

/-- The text is a run of digits, with single underscores between them. -/
structure IsDigits (accepts : Char → Bool) (body : Text) : Prop where
  all : ∀ c ∈ body, accepts c = true ∨ c = '_'
  notOperator : ∀ c ∈ body, isOperator c = false
  stable : ∀ behind, StopsDigits accepts behind → digits accepts (body ++ behind) = body.length

theorem exists_isDigits {accepts : Char → Bool} (ha : Alphanumeric accepts) (text : Text) :
    ∃ body tail, text = body ++ tail ∧ digits accepts text = body.length ∧
      IsDigits accepts body := by
  obtain ⟨body, tail, htext, hlength, hall, hstable⟩ := exists_body_of_digitRun accepts 0 text
  refine ⟨body, tail, htext, ?_, hall, fun c hc => ?_, fun behind hb => ?_⟩
  · rw [digits, hlength, Nat.zero_add]
  · cases ho : isOperator c with
    | false => rfl
    | true =>
      have hbreak : isWordBreak c = true := by simp [isWordBreak, ho]
      rcases hall c hc with hdigit | hunder
      · rw [ha.not_accepts hbreak] at hdigit
        cases hdigit
      · exact absurd hunder (not_alphanumeric_of_isWordBreak hbreak).2.2
  · rw [digits, hstable behind hb, Nat.zero_add]

theorem exists_body_of_optional (accepts : Char → Bool) (text : Text) :
    ∃ body tail, text = body ++ tail ∧ optional accepts text = body.length ∧
      (∀ c ∈ body, accepts c = true) ∧
      ∀ behind, (∀ c ∈ behind.head?, accepts c = false) →
        optional accepts (body ++ behind) = body.length := by
  have hnone : ∀ behind, (∀ c ∈ behind.head?, accepts c = false) →
      optional accepts ([] ++ behind) = 0 := by
    intro behind hb
    cases behind with
    | nil => rfl
    | cons c behind => simp [optional, hb c rfl]
  cases text with
  | nil => exact ⟨[], [], rfl, rfl, by simp, hnone⟩
  | cons c text =>
    cases hc : accepts c with
    | true => exact ⟨[c], text, rfl, by simp [optional, hc], by simp [hc], by simp [optional, hc]⟩
    | false => exact ⟨[], _, rfl, by simp [optional, hc], by simp, hnone⟩

/-! ## Exponents -/

theorem isExponentMark_cases {c : Char} (h : isExponentMark c = true) :
    isRegexFlag c = true ∧ c ≠ '.' ∧ c ≠ 'n' ∧ isDigit c = false ∧ c ≠ '_' := by
  simp only [isExponentMark, Bool.or_eq_true, beq_iff_eq] at h
  rcases h with rfl | rfl <;> decide

theorem not_isSign_of_not_isOperator {c : Char} (h : isOperator c = false) : isSign c = false := by
  cases hc : isSign c with
  | false => rfl
  | true =>
    simp only [isSign, Bool.or_eq_true, beq_iff_eq] at hc
    rcases hc with rfl | rfl <;> cases h

theorem exponent_of_no_mark {text : Text} (h : ∀ c ∈ text.head?, isExponentMark c = false)
    (read : Nat) : exponent read text = { length := read } := by
  cases text with
  | nil => rfl
  | cons c text => simp [exponent, h c rfl]

theorem StopsWord.not_isExponentMark {text : Text} (h : StopsWord text) :
    ∀ c ∈ text.head?, isExponentMark c = false := by
  intro c hc
  cases hmark : isExponentMark c with
  | false => rfl
  | true => exact absurd rfl (h.ne_letter (isExponentMark_cases hmark).1 c hc)

/-- An exponent, which may be empty, ends in a digit and is left alone by a blank or an
operator. -/
theorem exists_body_of_exponent {read : Nat} {text : Text}
    (hf : (exponent read text).fault = none) :
    ∃ body tail, text = body ++ tail ∧ exponent read text = { length := read + body.length } ∧
      (∀ c ∈ body.head?, isExponentMark c = true) ∧
      (∀ c ∈ body.getLast?, isOperator c = false) ∧
      ∀ behind, StopsWord behind →
        exponent read (body ++ behind) = { length := read + body.length } := by
  by_cases hmark : ∀ c ∈ text.head?, isExponentMark c = false
  · exact ⟨[], text, rfl, exponent_of_no_mark hmark read, by simp, by simp,
      fun behind hb => exponent_of_no_mark hb.not_isExponentMark read⟩
  obtain ⟨c, text, rfl, hc⟩ : ∃ c rest, text = c :: rest ∧ isExponentMark c = true := by
    cases text <;> simp_all
  obtain ⟨sign, rest, rfl, hsign, _, hsigned⟩ := exists_body_of_optional isSign text
  obtain ⟨count, tail, rfl, hcount, hdigits⟩ := exists_isDigits alphanumeric_isDigit rest
  have hfilled : count ≠ [] := by
    intro hnil
    have hzero : digits isDigit (count ++ tail) = 0 := by rw [hcount, hnil, List.length_nil]
    simp only [exponent, hc, if_true, hsign, List.drop_left, hzero] at hf
    cases hf
  have hread : ∀ behind, optional isSign (sign ++ (count ++ behind)) = sign.length →
      digits isDigit (count ++ behind) = count.length →
      exponent read (c :: (sign ++ (count ++ behind))) =
        { length := read + (c :: (sign ++ count)).length } := by
    intro behind hs hd
    simp only [exponent, hc, if_true, hs, List.drop_left, hd]
    rw [if_neg (by simpa using hfilled), List.length_cons, List.length_append]
    congr 1
    omega
  refine ⟨c :: (sign ++ count), tail, by simp, hread tail hsign hcount, by simp [hc], ?_, ?_⟩
  · intro d hd
    rw [← List.cons_append] at hd
    rcases mem_getLast?_append hd with hd | ⟨hnil, _⟩
    · exact hdigits.notOperator d (List.mem_of_mem_getLast? hd)
    · exact absurd hnil hfilled
  · intro behind hb
    rw [List.cons_append, List.append_assoc]
    refine hread behind (hsigned _ ?_) (hdigits.stable behind (hb.stopsDigits alphanumeric_isDigit))
    intro d hd
    rcases mem_head?_append hd with hd | ⟨hnil, _⟩
    · exact not_isSign_of_not_isOperator (hdigits.notOperator d (List.mem_of_mem_head? hd))
    · exact absurd hnil hfilled

/-- An exponent, or what stands behind a number without one, starts with neither a digit nor an
`n`. -/
theorem head?_exponent_append {part behind : Text}
    (hpart : ∀ c ∈ part.head?, isExponentMark c = true) (hb : StopsWord behind) :
    StopsDigits isDigit (part ++ behind) ∧ ∀ c ∈ (part ++ behind).head?, c ≠ 'n' := by
  refine ⟨fun c hc => ?_, fun c hc => ?_⟩
  · rcases mem_head?_append hc with hc | ⟨_, hc⟩
    · exact (isExponentMark_cases (hpart c hc)).2.2.2
    · exact hb.stopsDigits alphanumeric_isDigit c hc
  · rcases mem_head?_append hc with hc | ⟨_, hc⟩
    · exact (isExponentMark_cases (hpart c hc)).2.2.1
    · exact hb.ne_letter (by decide) c hc

end ScriptMinifier.Lexeme
