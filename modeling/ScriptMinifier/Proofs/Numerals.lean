-- Numerals are runs of digits in which every underscore stands between two digits. The scan of
-- digits looks one character ahead at an underscore, and this is enough to take the longest numeral
-- that a text starts with. An exponent is a mark, perhaps a sign, and a numeral.
import ScriptMinifier.Proofs.Digits

namespace ScriptMinifier.Lexeme

open Character

/-! ## Numerals -/

/-- Every underscore stands between two digits. -/
def Separated (accepts : Char → Bool) (text : Text) : Prop :=
  ∀ before after, text = before ++ '_' :: after →
    before.getLast?.any accepts = true ∧ after.head?.any accepts = true

/-- At least one digit, and underscores between the digits only. -/
structure IsNumeral (accepts : Char → Bool) (body : Text) : Prop where
  filled : body ≠ []
  all : ∀ c ∈ body, accepts c = true ∨ c = '_'
  separated : Separated accepts body

/-- The longest numeral that the text starts with. It is empty if there is none. -/
structure IsLongest (accepts : Char → Bool) (text part : Text) : Prop where
  starts : part <+: text
  numeral : part ≠ [] → IsNumeral accepts part
  longest : ∀ other, other <+: text → IsNumeral accepts other → other.length ≤ part.length

variable {accepts : Char → Bool} {text part front behind : Text}

theorem any_head?_append (behind : Text) (h : front.head?.any accepts = true) :
    (front ++ behind).head?.any accepts = true := by
  obtain ⟨c, hc⟩ := Option.isSome_iff_exists.1 (Option.isSome_of_any h)
  rw [List.head?_append, hc, Option.some_or, ← hc, h]

theorem any_getLast?_append (front : Text) (h : behind.getLast?.any accepts = true) :
    (front ++ behind).getLast?.any accepts = true := by
  obtain ⟨c, hc⟩ := Option.isSome_iff_exists.1 (Option.isSome_of_any h)
  rw [List.getLast?_append, hc, Option.some_or, ← hc, h]

theorem separated_of_not_mem (h : '_' ∉ text) : Separated accepts text := by
  rintro before after rfl
  simp at h

theorem Separated.append (hfront : Separated accepts front) (hbehind : Separated accepts behind) :
    Separated accepts (front ++ behind) := by
  intro before after h
  rcases List.append_eq_append_iff.1 h with ⟨middle, rfl, hmiddle⟩ | ⟨middle, rfl, hmiddle⟩
  · obtain ⟨hlast, hhead⟩ := hbehind middle after hmiddle
    exact ⟨any_getLast?_append _ hlast, hhead⟩
  · cases middle with
    | nil =>
      obtain ⟨hlast, _⟩ := hbehind [] after (by simpa using hmiddle.symm)
      cases hlast
    | cons d middle =>
      obtain ⟨rfl, hafter⟩ := List.cons.inj hmiddle
      obtain ⟨hlast, hhead⟩ := hfront before middle rfl
      exact ⟨hlast, hafter ▸ any_head?_append _ hhead⟩

/-- An underscore may join two parts where a digit stands on either side of it. -/
theorem Separated.join (hfront : Separated accepts front) (hbehind : Separated accepts behind)
    (hlast : front.getLast?.any accepts = true) (hhead : behind.head?.any accepts = true) :
    Separated accepts (front ++ '_' :: behind) := by
  intro before after h
  rcases List.append_eq_append_iff.1 h with ⟨middle, rfl, hmiddle⟩ | ⟨middle, rfl, hmiddle⟩
  · cases middle with
    | nil =>
      obtain ⟨_, rfl⟩ := List.cons.inj hmiddle
      exact ⟨by simpa using hlast, hhead⟩
    | cons d middle =>
      obtain ⟨rfl, hafter⟩ := List.cons.inj hmiddle
      obtain ⟨hlast', hhead'⟩ := hbehind middle after hafter
      exact ⟨any_getLast?_append _ (any_getLast?_append ['_'] hlast'), hhead'⟩
  · cases middle with
    | nil =>
      obtain ⟨_, rfl⟩ := List.cons.inj hmiddle
      exact ⟨by simpa using hlast, hhead⟩
    | cons d middle =>
      obtain ⟨rfl, hafter⟩ := List.cons.inj hmiddle
      obtain ⟨hlast', hhead'⟩ := hfront before middle rfl
      exact ⟨hlast', hafter ▸ any_head?_append _ hhead'⟩

namespace IsNumeral

theorem getLast? (h : IsNumeral accepts front) : front.getLast?.any accepts = true := by
  obtain ⟨before, last, rfl⟩ : ∃ before last, front = before ++ [last] :=
    ⟨_, _, (List.dropLast_concat_getLast h.filled).symm⟩
  rcases h.all last (by simp) with hlast | rfl
  · simpa using hlast
  · obtain ⟨_, hnone⟩ := h.separated before [] rfl
    cases hnone

theorem exists_cons (h : IsNumeral accepts front) :
    ∃ c later, front = c :: later ∧ accepts c = true := by
  obtain ⟨c, later, rfl⟩ := List.exists_cons_of_ne_nil h.filled
  refine ⟨c, later, rfl, ?_⟩
  rcases h.all c List.mem_cons_self with hc | rfl
  · exact hc
  · obtain ⟨hnone, _⟩ := h.separated [] later rfl
    cases hnone

/-- One more digit makes a longer numeral. -/
theorem digit (hunderscore : accepts '_' = false) (h : front ≠ [] → IsNumeral accepts front)
    {c : Char} (hc : accepts c = true) : IsNumeral accepts (front ++ [c]) := by
  have hne : c ≠ '_' := by
    rintro rfl
    rw [hunderscore] at hc
    cases hc
  have hsingle : Separated accepts [c] := separated_of_not_mem (by simp [hne.symm])
  by_cases hfront : front = []
  · subst hfront
    exact ⟨by simp, by simp [hc], hsingle⟩
  · refine ⟨by simp, fun d hd => ?_, (h hfront).separated.append hsingle⟩
    rcases List.mem_append.1 hd with hd | hd
    · exact (h hfront).all d hd
    · exact Or.inl (List.mem_singleton.1 hd ▸ hc)

/-- So do an underscore and a digit. -/
theorem separator (hunderscore : accepts '_' = false) (h : IsNumeral accepts front)
    {c : Char} (hc : accepts c = true) : IsNumeral accepts (front ++ ['_', c]) := by
  have hsingle : IsNumeral accepts ([] ++ [c]) := digit hunderscore (absurd rfl) hc
  refine ⟨by simp, fun d hd => ?_, h.separated.join hsingle.separated h.getLast? (by simp [hc])⟩
  simp only [List.mem_append, List.mem_cons, List.not_mem_nil, or_false] at hd
  rcases hd with hd | rfl | rfl
  · exact h.all d hd
  · exact Or.inr rfl
  · exact Or.inl hc

end IsNumeral

/-! ## The longest numeral -/

/-- A numeral is the longest one where nothing of what follows makes a longer one. -/
theorem isLongest_of_stuck (h : front ≠ [] → IsNumeral accepts front)
    (hstuck : ∀ more, more <+: text → more ≠ [] → ¬ IsNumeral accepts (front ++ more)) :
    IsLongest accepts (front ++ text) front := by
  refine ⟨List.prefix_append _ _, h, fun other hother hnumeral => Nat.not_lt.1 fun hlt => ?_⟩
  obtain ⟨more, rfl⟩ :=
    List.prefix_of_prefix_length_le (List.prefix_append front text) hother (by omega)
  refine hstuck more ((List.prefix_append_right_inj front).1 hother) ?_ hnumeral
  rintro rfl
  simp at hlt

theorem not_isNumeral_of_underscore (h : ¬ (front ≠ [] ∧ behind.head?.any accepts = true))
    {more : Text} (hmore : more <+: '_' :: behind) (hne : more ≠ []) :
    ¬ IsNumeral accepts (front ++ more) := by
  intro hnumeral
  obtain ⟨later, rfl, hlater⟩ := (List.prefix_cons_iff.1 hmore).resolve_left hne
  obtain ⟨hlast, hhead⟩ := hnumeral.separated front later rfl
  refine h ⟨?_, ?_⟩
  · rintro rfl
    cases hlast
  · obtain ⟨after, rfl⟩ := hlater
    exact any_head?_append after hhead

theorem not_isNumeral_of_other {c : Char} (hc : accepts c = false) (hother : c ≠ '_')
    {more : Text} (hmore : more <+: c :: behind) (hne : more ≠ []) :
    ¬ IsNumeral accepts (front ++ more) := by
  intro hnumeral
  obtain ⟨later, rfl, _⟩ := (List.prefix_cons_iff.1 hmore).resolve_left hne
  rcases hnumeral.all c (by simp) with h | h
  · rw [hc] at h
    cases h
  · exact hother h

/-- The scan of digits goes on as long as a numeral does. -/
theorem isLongest_digitRun (hunderscore : accepts '_' = false) (read : Nat) (text : Text)
    (front : Text) (hread : front.length = read) (hfront : front ≠ [] → IsNumeral accepts front) :
    IsLongest accepts (front ++ text) ((front ++ text).take (digitRun accepts read text)) := by
  have hstop : ∀ {front : Text} {read : Nat} (ahead : Text), front.length = read →
      (front ++ ahead).take read = front := by
    rintro front read ahead rfl
    exact List.take_left
  -- What has been read is carried along as `front`: an underscore needs a digit on both sides.
  fun_induction digitRun accepts read text generalizing front with
  | case1 read =>
    rw [hstop _ hread]
    exact isLongest_of_stuck hfront fun more hmore hne => absurd (List.prefix_nil.1 hmore) hne
  | case2 read =>
    rw [hstop _ hread]
    exact isLongest_of_stuck hfront fun more => not_isNumeral_of_underscore (by simp)
  | case3 read c text hdigit ih =>
    obtain ⟨hpos, hc⟩ : 0 < read ∧ accepts c = true := by simpa using hdigit
    have hnumeral := hfront (List.ne_nil_of_length_pos (hread ▸ hpos))
    have hnext := ih (front ++ ['_', c]) (by simp [hread])
      fun _ => hnumeral.separator hunderscore hc
    simpa using hnext
  | case4 read c text hdigit =>
    rw [hstop _ hread]
    refine isLongest_of_stuck hfront fun more => not_isNumeral_of_underscore ?_
    rintro ⟨hne, hc⟩
    have hpos : 0 < read := hread ▸ List.length_pos_iff.2 hne
    exact hdigit (by simpa [hpos] using hc)
  | case5 read c text hend hunder hdigit ih =>
    have hnext := ih (front ++ [c]) (by simp [hread]) fun _ => .digit hunderscore hfront hdigit
    simpa using hnext
  | case6 read c text hend hunder hdigit =>
    have hother : c ≠ '_' := by
      intro hc
      cases text with
      | nil => exact hend hc rfl
      | cons d text => exact hunder d text hc rfl
    rw [hstop _ hread]
    refine isLongest_of_stuck hfront fun more => not_isNumeral_of_other ?_ hother
    simpa using hdigit

/-- A text splits into the longest numeral, which is what the scan counts, and the rest. -/
theorem exists_isLongest (accepts : Char → Bool) (hunderscore : accepts '_' = false) (text : Text) :
    ∃ part rest, text = part ++ rest ∧ digits accepts text = part.length ∧
      IsLongest accepts text part := by
  have hlongest := isLongest_digitRun hunderscore 0 text [] rfl (absurd rfl)
  obtain ⟨part, rest, rfl, hcount, _⟩ := exists_body_of_digitRun accepts 0 text
  rw [List.nil_append, hcount, Nat.zero_add, List.take_left] at hlongest
  exact ⟨part, rest, rfl, by rw [digits, hcount, Nat.zero_add], hlongest⟩

theorem IsLongest.unique {other : Text} (h : IsLongest accepts text part)
    (hother : IsLongest accepts text other) : part = other := by
  have hle : ∀ {a b : Text}, IsLongest accepts text a → IsLongest accepts text b →
      a.length ≤ b.length := by
    intro a b ha hb
    by_cases hnil : a = []
    · simp [hnil]
    · exact hb.longest a ha.starts (ha.numeral hnil)
  exact (List.prefix_of_prefix_length_le h.starts hother.starts (hle h hother)).eq_of_length
    (Nat.le_antisymm (hle h hother) (hle hother h))

/-- Nothing is the longest only where no numeral stands at all. -/
theorem IsLongest.ne_nil_iff (h : IsLongest accepts text part) :
    part ≠ [] ↔ ∃ numeral, IsNumeral accepts numeral ∧ numeral <+: text := by
  constructor
  · intro hne
    exact ⟨part, h.numeral hne, h.starts⟩
  · rintro ⟨numeral, hnumeral, hstarts⟩ rfl
    have hle := h.longest numeral hstarts hnumeral
    exact hnumeral.filled (List.length_eq_zero_iff.1 (Nat.le_zero.1 hle))

theorem IsLongest.separated (h : IsLongest accepts text part) : Separated accepts part := by
  by_cases hnil : part = []
  · exact separated_of_not_mem (by simp [hnil])
  · exact (h.numeral hnil).separated

/-! ## Exponents -/

/-- The exponent that the text starts with, with all its digits. It is empty if the text starts
with no mark of one. -/
inductive ExponentOf : (text part : Text) → Prop where
  | absent {text : Text} (unmarked : ∀ mark ∈ text.head?, mark ∉ ['e', 'E']) :
      ExponentOf text []
  | present {mark : Char} {sign rest part : Text} (marked : mark ∈ ['e', 'E'])
      (signed : sign ∈ [[], ['+'], ['-']]) (filled : part ≠ [])
      (longest : IsLongest isDigit rest part) :
      ExponentOf (mark :: (sign ++ rest)) (mark :: (sign ++ part))

/-- The text starts with the mark of an exponent, and no sign and numeral stand behind it. -/
def LacksExponent (text : Text) : Prop :=
  ∃ mark ∈ ['e', 'E'], text.head? = some mark ∧
    ∀ sign ∈ [[], ['+'], ['-']], ∀ part, IsNumeral isDigit part →
      ¬ mark :: (sign ++ part) <+: text

theorem ExponentOf.not_lacksExponent (h : ExponentOf text part) : ¬ LacksExponent text := by
  rintro ⟨mark, hmark, hhead, hlacks⟩
  cases h with
  | absent hunmarked => exact hunmarked mark hhead hmark
  | present hmarked hsigned hfilled hlongest =>
    obtain rfl := Option.some.inj hhead
    refine hlacks _ hsigned _ (hlongest.numeral hfilled) ?_
    obtain ⟨later, rfl⟩ := hlongest.starts
    exact ⟨later, by simp⟩

theorem exists_sign (text : Text) :
    ∃ sign rest, text = sign ++ rest ∧ sign ∈ [[], ['+'], ['-']] ∧
      optional isSign text = sign.length := by
  cases text with
  | nil => exact ⟨[], [], rfl, by simp, rfl⟩
  | cons c text =>
    cases hc : isSign c with
    | false => exact ⟨[], c :: text, rfl, by simp, by simp [optional, hc]⟩
    | true => exact ⟨[c], text, rfl, by simpa [isSign] using hc, by simp [optional, hc]⟩

theorem optional_sign_append {sign part : Text} (hsign : sign ∈ [[], ['+'], ['-']])
    (hpart : IsNumeral isDigit part) (tail : Text) :
    optional isSign (sign ++ part ++ tail) = sign.length := by
  obtain ⟨c, later, rfl, hc⟩ := hpart.exists_cons
  have hplain : isSign c = false := by
    cases hc' : isSign c with
    | false => rfl
    | true =>
      simp only [isSign, Bool.or_eq_true, beq_iff_eq] at hc'
      rcases hc' with rfl | rfl <;> cases hc
  simp only [List.mem_cons, List.not_mem_nil, or_false] at hsign
  rcases hsign with rfl | rfl | rfl
  · simp [optional, hplain]
  · rfl
  · rfl

/-- Where no digit stands behind the mark and the sign, there is no exponent. -/
theorem lacksExponent_of_no_digits {mark : Char} {sign rest : Text} (hmark : mark ∈ ['e', 'E'])
    (hsign : optional isSign (sign ++ rest) = sign.length)
    (hlongest : IsLongest isDigit rest []) : LacksExponent (mark :: (sign ++ rest)) := by
  refine ⟨mark, hmark, rfl, fun other hother part hpart hstarts => ?_⟩
  obtain ⟨tail, htail⟩ := (List.cons_prefix_cons.1 hstarts).2
  have hlength : other.length = sign.length := by
    rw [← hsign, ← htail, optional_sign_append hother hpart]
  obtain ⟨rfl, rfl⟩ := List.append_inj (by rw [← htail, List.append_assoc]) hlength
  exact hlongest.ne_nil_iff.2 ⟨part, hpart, List.prefix_append _ _⟩ rfl

/-- The scan of an exponent fails where there is none behind its mark, and else it reads all of
it. -/
theorem exponent_eq (read : Nat) (text : Text) :
    (LacksExponent text ∧ ∃ n, exponent read text = .fail .malformedNumber n) ∨
      ∃ part, ExponentOf text part ∧ part <+: text ∧
        exponent read text = { length := read + part.length } := by
  have hmarks : ∀ c, isExponentMark c = true ↔ c ∈ ['e', 'E'] := by simp [isExponentMark]
  by_cases hmarked : ∀ c ∈ text.head?, isExponentMark c = false
  · refine Or.inr ⟨[], .absent fun c hc => ?_, List.nil_prefix, exponent_of_no_mark hmarked read⟩
    rw [← hmarks, hmarked c hc]
    decide
  obtain ⟨mark, text, rfl, hmark⟩ :
      ∃ mark rest, text = mark :: rest ∧ isExponentMark mark = true := by
    cases text <;> simp_all
  obtain ⟨sign, rest, rfl, hsigned, hsign⟩ := exists_sign text
  obtain ⟨part, tail, rfl, hcount, hlongest⟩ := exists_isLongest isDigit rfl rest
  simp only [exponent, hmark, if_true, hsign, List.drop_left, hcount]
  by_cases hnil : part = []
  · subst hnil
    exact Or.inl ⟨lacksExponent_of_no_digits ((hmarks mark).1 hmark) hsign hlongest, _, rfl⟩
  · refine Or.inr ⟨mark :: (sign ++ part), .present ((hmarks mark).1 hmark) hsigned hnil hlongest,
      ⟨tail, by simp⟩, ?_⟩
    rw [if_neg (by simpa using hnil), List.length_cons, List.length_append]
    congr 1
    omega

end ScriptMinifier.Lexeme
