-- How far a number goes. A number that ends in a digit or a letter is left alone by a blank or an
-- operator behind it, and only one that is all digits would take in a dot. A number that ends in
-- a dot is not safe at all: it takes in the digits or the exponent behind it, and before two more
-- dots it cannot be read.
import ScriptMinifier.Proofs.Digits

namespace ScriptMinifier

open Character

/-- The scan goes past a lexeme of this length, or it fails. -/
def Scan.GoesPast (scan : Scan) (length : Nat) : Prop := scan.fault ≠ none ∨ length < scan.length

namespace Lexeme

/-! ## Dots -/

section Dots

variable {whole rest : Text}

theorem decimal_of_no_dot (hwhole : digits isDigit (whole ++ rest) = whole.length)
    (hrest : ∀ c ∈ rest.head?, c ≠ '.') :
    decimal (whole ++ rest) = exponent (whole.length + optional (· == 'n') rest)
      (rest.drop (optional (· == 'n') rest)) := by
  have hdots : rest.takeWhile (· == '.') = [] := takeWhile_eq_nil (by simpa using hrest)
  simp only [decimal, hwhole, List.drop_left, hdots, List.length_nil]

theorem decimal_of_dot (hwhole : digits isDigit (whole ++ '.' :: rest) = whole.length)
    (hrest : ∀ c ∈ rest.head?, c ≠ '.') :
    decimal (whole ++ '.' :: rest) = exponent (whole.length + 1 + digits isDigit rest)
      (rest.drop (digits isDigit rest)) := by
  have hdots : rest.takeWhile (· == '.') = [] := takeWhile_eq_nil (by simpa using hrest)
  simp [decimal, hwhole, hdots, Nat.add_comm 1]

theorem decimal_of_two_dots (hwhole : digits isDigit (whole ++ '.' :: '.' :: rest) = whole.length)
    (hrest : ∀ c ∈ rest.head?, c ≠ '.') :
    decimal (whole ++ '.' :: '.' :: rest) = { length := whole.length + 1 } := by
  have hdots : rest.takeWhile (· == '.') = [] := takeWhile_eq_nil (by simpa using hrest)
  simp [decimal, hwhole, hdots]

theorem decimal_of_more_dots
    (hwhole : digits isDigit (whole ++ '.' :: '.' :: '.' :: rest) = whole.length) :
    decimal (whole ++ '.' :: '.' :: '.' :: rest) = .fail .malformedNumber whole.length := by
  simp [decimal, hwhole]

end Dots

/-! ## Numbers that end in a dot -/

/-- Whether a number that ends in a dot would take in what stands behind it. Before two more dots
it cannot be read at all. -/
def extendsPoint (behind : Text) : Bool :=
  behind.head?.any (fun c => isDigit c || isExponentMark c) || ['.', '.'].isPrefixOf behind

theorem IsDigits.length_before_dot {whole : Text} (h : IsDigits isDigit whole) (behind : Text) :
    digits isDigit (whole ++ '.' :: behind) = whole.length :=
  h.stable _ (by simp [StopsDigits, isDigit])

theorem digits_of_not_isDigit {c : Char} (text : Text) (h : isDigit c = false) :
    digits isDigit (c :: text) = 0 := by
  by_cases hc : c = '_'
  · subst hc
    cases text <;> simp [digits, digitRun]
  · rw [digits, digitRun] <;> simp [h, hc]

theorem decimal_point {whole behind : Text} (h : IsDigits isDigit whole)
    (hb : extendsPoint behind = false) :
    decimal (whole ++ '.' :: behind) = { length := whole.length + 1 } := by
  have hwhole := h.length_before_dot behind
  cases behind with
  | nil => exact decimal_of_dot hwhole (by simp)
  | cons c behind =>
    simp only [extendsPoint, List.head?_cons, Option.any_some, Bool.or_eq_false_iff] at hb
    obtain ⟨⟨hdigit, hmark⟩, hdots⟩ := hb
    by_cases hc : c = '.'
    · subst hc
      apply decimal_of_two_dots hwhole
      rintro d hd rfl
      cases behind <;> simp_all
    · rw [decimal_of_dot hwhole (by simpa using hc), digits_of_not_isDigit _ hdigit]
      exact exponent_of_no_mark (by simpa using hmark) _

theorem decimal_point_goesPast {whole behind : Text} (h : IsDigits isDigit whole)
    (hb : extendsPoint behind = true) :
    (decimal (whole ++ '.' :: behind)).GoesPast (whole.length + 1) := by
  have hwhole := h.length_before_dot behind
  cases behind with
  | nil => cases hb
  | cons c behind =>
    by_cases hc : c = '.'
    · subst hc
      cases behind with
      | nil => cases hb
      | cons d behind =>
        obtain rfl : '.' = d := by
          simpa [extendsPoint, isDigit, isExponentMark] using hb
        rw [decimal_of_more_dots hwhole]
        exact Or.inl (by simp [Scan.fail])
    · rw [decimal_of_dot hwhole (by simpa using hc)]
      cases hdigit : isDigit c with
      | true =>
        have hcount := digits_cons_pos behind hdigit
        have hlength := le_length_exponent (whole.length + 1 + digits isDigit (c :: behind))
          ((c :: behind).drop (digits isDigit (c :: behind)))
        exact Or.inr (by omega)
      | false =>
        have hmark : isExponentMark c = true := by
          simpa [extendsPoint, hdigit, Ne.symm hc] using hb
        rw [digits_of_not_isDigit _ hdigit]
        simp only [List.drop_zero, exponent, hmark, if_true]
        split
        · exact Or.inl (by simp [Scan.fail])
        · exact Or.inr (by dsimp only; omega)

/-! ## Decimal numbers -/

/-- A decimal number that ends in a digit or a letter. A blank or an operator behind it leaves it
as it is, but digits alone would take in a dot. -/
structure IsClosed (body : Text) : Prop where
  last : ∀ c ∈ body.getLast?, isOperator c = false
  stable : ∀ behind, StopsWord behind →
    ((∀ c ∈ body, isDigit c = true ∨ c = '_') → ∀ c ∈ behind.head?, c ≠ '.') →
    decimal (body ++ behind) = { length := body.length }

theorem exists_isClosed_of_no_dot {whole rest : Text} (h : IsDigits isDigit whole)
    (hwhole : digits isDigit (whole ++ rest) = whole.length) (hrest : ∀ c ∈ rest.head?, c ≠ '.')
    (hf : (decimal (whole ++ rest)).fault = none) :
    ∃ body tail, whole ++ rest = body ++ tail ∧
      decimal (whole ++ rest) = { length := body.length } ∧ IsClosed body := by
  -- The number is its digits, then maybe an `n`, then maybe an exponent. Each of the three stops
  -- at the start of the next one, or at what stands behind.
  rw [decimal_of_no_dot hwhole hrest] at hf ⊢
  obtain ⟨suffix, rest, rfl, hsuffix, hn, hsuffixed⟩ := exists_body_of_optional (· == 'n') rest
  replace hn : ∀ c ∈ suffix, c = 'n' := by simpa using hn
  rw [hsuffix, List.drop_left] at hf ⊢
  obtain ⟨part, tail, rfl, hexponent, hmark, hlast, hstable⟩ := exists_body_of_exponent hf
  refine ⟨whole ++ (suffix ++ part), tail, by simp, ?_, ?_, ?_⟩
  · rw [hexponent]
    simp [Nat.add_assoc]
  · intro c hc
    rcases mem_getLast?_append hc with hc | ⟨_, hc⟩
    · rcases mem_getLast?_append hc with hc | ⟨_, hc⟩
      · exact hlast c hc
      · obtain rfl := hn c (List.mem_of_mem_getLast? hc)
        decide
    · exact h.notOperator c (List.mem_of_mem_getLast? hc)
  · intro behind hb hplain
    obtain ⟨hstops, hnotn⟩ := head?_exponent_append hmark hb
    have hdigits : StopsDigits isDigit (suffix ++ (part ++ behind)) := by
      intro c hc
      rcases mem_head?_append hc with hc | ⟨_, hc⟩
      · obtain rfl := hn c (List.mem_of_mem_head? hc)
        decide
      · exact hstops c hc
    have hnodot : ∀ c ∈ (suffix ++ (part ++ behind)).head?, c ≠ '.' := by
      intro c hc
      rcases mem_head?_append hc with hc | ⟨hsuffix, hc⟩
      · obtain rfl := hn c (List.mem_of_mem_head? hc)
        decide
      · rcases mem_head?_append hc with hc | ⟨hpart, hc⟩
        · exact (isExponentMark_cases (hmark c hc)).2.1
        · exact hplain (by simpa [hsuffix, hpart] using h.all) c hc
    rw [List.append_assoc, List.append_assoc, decimal_of_no_dot (h.stable _ hdigits) hnodot,
      hsuffixed _ (by simpa using hnotn), List.drop_left, hstable behind hb]
    simp [Nat.add_assoc]

theorem exists_isClosed_of_dot {whole rest : Text} (h : IsDigits isDigit whole)
    (hrest : ∀ c ∈ rest.head?, c ≠ '.') (hf : (decimal (whole ++ '.' :: rest)).fault = none) :
    ∃ body tail, whole ++ '.' :: rest = body ++ tail ∧
      decimal (whole ++ '.' :: rest) = { length := body.length } ∧
      (body = whole ++ ['.'] ∨ IsClosed body) := by
  rw [decimal_of_dot (h.length_before_dot rest) hrest] at hf ⊢
  obtain ⟨fraction, rest, rfl, hfraction, hdigits⟩ := exists_isDigits alphanumeric_isDigit rest
  rw [hfraction, List.drop_left] at hf ⊢
  obtain ⟨part, tail, rfl, hexponent, hmark, hlast, hstable⟩ := exists_body_of_exponent hf
  have hlength : whole.length + 1 + fraction.length + part.length =
      (whole ++ '.' :: (fraction ++ part)).length := by
    simp only [List.length_append, List.length_cons]
    omega
  rw [hlength] at hexponent hstable
  refine ⟨whole ++ '.' :: (fraction ++ part), tail, by simp, hexponent, ?_⟩
  -- Only with neither a fraction nor an exponent does the number end in its dot.
  by_cases hfilled : fraction ++ part = []
  · exact Or.inl (by rw [hfilled])
  refine Or.inr ⟨?_, ?_⟩
  · intro c hc
    rw [List.append_cons] at hc
    rcases mem_getLast?_append hc with hc | ⟨hnil, _⟩
    · rcases mem_getLast?_append hc with hc | ⟨_, hc⟩
      · exact hlast c hc
      · exact hdigits.notOperator c (List.mem_of_mem_getLast? hc)
    · exact absurd hnil hfilled
  · intro behind hb _
    obtain ⟨hstops, _⟩ := head?_exponent_append hmark hb
    have hnodot : ∀ c ∈ (fraction ++ (part ++ behind)).head?, c ≠ '.' := by
      intro c hc
      rcases mem_head?_append hc with hc | ⟨hfraction, hc⟩
      · rintro rfl
        have := hdigits.notOperator '.' (List.mem_of_mem_head? hc)
        cases this
      · rcases mem_head?_append hc with hc | ⟨hpart, _⟩
        · exact (isExponentMark_cases (hmark c hc)).2.1
        · exact absurd (by rw [hfraction, hpart]; rfl) hfilled
    rw [List.append_assoc, List.cons_append, List.append_assoc,
      decimal_of_dot (h.length_before_dot _) hnodot, hdigits.stable _ hstops, List.drop_left,
      hstable behind hb]

theorem exists_body_of_decimal {text : Text} (hf : (decimal text).fault = none) :
    ∃ body tail, text = body ++ tail ∧ decimal text = { length := body.length } ∧
      ((∃ whole, body = whole ++ ['.'] ∧ IsDigits isDigit whole) ∨ IsClosed body) := by
  obtain ⟨whole, rest, rfl, hwhole, hdigits⟩ := exists_isDigits alphanumeric_isDigit text
  by_cases hdot : ∀ c ∈ rest.head?, c ≠ '.'
  · obtain ⟨body, tail, htext, hlength, hclosed⟩ :=
      exists_isClosed_of_no_dot hdigits hwhole hdot hf
    exact ⟨body, tail, htext, hlength, Or.inr hclosed⟩
  obtain ⟨rest, rfl⟩ : ∃ more, rest = '.' :: more := by
    cases rest <;> simp_all
  by_cases hdots : ∀ c ∈ rest.head?, c ≠ '.'
  · obtain ⟨body, tail, htext, hlength, hbody | hclosed⟩ := exists_isClosed_of_dot hdigits hdots hf
    · exact ⟨body, tail, htext, hlength, Or.inl ⟨whole, hbody, hdigits⟩⟩
    · exact ⟨body, tail, htext, hlength, Or.inr hclosed⟩
  obtain ⟨rest, rfl⟩ : ∃ more, rest = '.' :: more := by
    cases rest <;> simp_all
  -- Of two dots the number takes the first one. With a third it would have failed.
  refine ⟨whole ++ ['.'], '.' :: rest, by simp, ?_, Or.inl ⟨whole, rfl, hdigits⟩⟩
  rw [decimal_of_two_dots hwhole, List.length_append, List.length_singleton]
  rintro c hc rfl
  obtain ⟨more, rfl⟩ := List.head?_eq_some_iff.1 hc
  rw [decimal_of_more_dots hwhole] at hf
  cases hf

/-! ## Numbers with a radix -/

theorem radixDigits?_cases {letter : Char} {accepts : Char → Bool}
    (h : radixDigits? letter = some accepts) :
    isRegexFlag letter = true ∧
      (accepts = isHexDigit ∨ accepts = isBinaryDigit ∨ accepts = isOctalDigit) := by
  unfold radixDigits? at h
  simp only [Bool.or_eq_true, beq_iff_eq] at h
  split at h
  · next hletter =>
    cases h
    rcases hletter with rfl | rfl <;> exact ⟨by decide, by simp⟩
  split at h
  · next hletter =>
    cases h
    rcases hletter with rfl | rfl <;> exact ⟨by decide, by simp⟩
  split at h
  · next hletter =>
    cases h
    rcases hletter with rfl | rfl <;> exact ⟨by decide, by simp⟩
  · cases h

theorem alphanumeric_of_radixDigits? {letter : Char} {accepts : Char → Bool}
    (h : radixDigits? letter = some accepts) : Alphanumeric accepts ∧ accepts 'n' = false := by
  obtain ⟨_, rfl | rfl | rfl⟩ := radixDigits?_cases h
  · refine ⟨fun c hc => ?_, by decide⟩
    simp only [isHexDigit, Bool.or_eq_true, Bool.and_eq_true, decide_eq_true_eq] at hc
    simp only [isRegexFlag, Bool.or_eq_true, Bool.and_eq_true, decide_eq_true_eq]
    rcases hc with (hc | hc) | hc
    · exact Or.inl hc
    · exact Or.inr (Or.inl ⟨hc.1, Char.le_trans hc.2 (by decide)⟩)
    · exact Or.inr (Or.inr ⟨hc.1, Char.le_trans hc.2 (by decide)⟩)
  · refine ⟨fun c hc => ?_, by decide⟩
    simp only [isBinaryDigit, Bool.or_eq_true, beq_iff_eq] at hc
    rcases hc with rfl | rfl <;> decide
  · refine ⟨fun c hc => ?_, by decide⟩
    simp only [isOctalDigit, Bool.and_eq_true, decide_eq_true_eq] at hc
    simp only [isDigit, Bool.and_eq_true, decide_eq_true_eq]
    exact Or.inl ⟨hc.1, Char.le_trans hc.2 (by decide)⟩

theorem exists_body_of_radix {letter : Char} {accepts : Char → Bool}
    (hletter : radixDigits? letter = some accepts) {a b : Char} {text : Text}
    (hf : (radix accepts (a :: b :: text)).fault = none) :
    ∃ body tail, text = body ++ tail ∧
      radix accepts (a :: b :: text) = { length := (a :: b :: body).length } ∧
      (∀ c ∈ (a :: b :: body).getLast?, isOperator c = false) ∧
      ∀ behind, StopsWord behind →
        radix accepts (a :: b :: (body ++ behind)) = { length := (a :: b :: body).length } := by
  obtain ⟨ha, han⟩ := alphanumeric_of_radixDigits? hletter
  -- No radix has `n` for a digit, so the digits stop before the suffix.
  obtain ⟨count, rest, rfl, hcount, hdigits⟩ := exists_isDigits ha text
  obtain ⟨suffix, tail, rfl, hsuffix, hn, hsuffixed⟩ := exists_body_of_optional (· == 'n') rest
  replace hn : ∀ c ∈ suffix, c = 'n' := by simpa using hn
  have hfilled : count ≠ [] := by
    intro hnil
    have hzero : digits accepts (count ++ (suffix ++ tail)) = 0 := by
      rw [hcount, hnil, List.length_nil]
    simp only [radix, List.drop_succ_cons, List.drop_zero, hzero] at hf
    cases hf
  have hread : ∀ behind, digits accepts (count ++ (suffix ++ behind)) = count.length →
      optional (· == 'n') (suffix ++ behind) = suffix.length →
      radix accepts (a :: b :: (count ++ (suffix ++ behind))) =
        { length := (a :: b :: (count ++ suffix)).length } := by
    intro behind hc hs
    have hdrop : (a :: b :: (count ++ (suffix ++ behind))).drop (2 + count.length) =
        suffix ++ behind := by
      rw [Nat.add_comm, List.drop_succ_cons, List.drop_succ_cons, List.drop_left]
    simp only [radix, List.drop_succ_cons, List.drop_zero, hc, hdrop, hs]
    rw [if_neg (by simpa using hfilled), List.length_cons, List.length_cons, List.length_append]
    congr 1
    omega
  refine ⟨count ++ suffix, tail, by simp, hread tail hcount hsuffix, ?_, ?_⟩
  · intro c hc
    rw [show a :: b :: (count ++ suffix) = [a, b] ++ (count ++ suffix) from rfl] at hc
    rcases mem_getLast?_append hc with hc | ⟨hnil, _⟩
    · rcases mem_getLast?_append hc with hc | ⟨_, hc⟩
      · obtain rfl := hn c (List.mem_of_mem_getLast? hc)
        decide
      · exact hdigits.notOperator c (List.mem_of_mem_getLast? hc)
    · exact absurd (List.append_eq_nil_iff.1 hnil).1 hfilled
  · intro behind hb
    rw [List.append_assoc]
    apply hread
    · apply hdigits.stable
      intro c hc
      rcases mem_head?_append hc with hc | ⟨_, hc⟩
      · obtain rfl := hn c (List.mem_of_mem_head? hc)
        exact ⟨han, by decide⟩
      · exact hb.stopsDigits ha c hc
    · apply hsuffixed
      simpa using hb.ne_letter (by decide)

/-! ## Which number starts -/

/-- Whether the text starts with a decimal number. -/
def startsDecimal : Text → Bool
  | '0' :: letter :: _ => (radixDigits? letter).isNone
  | '.' :: c :: _ => isDigit c
  | c :: _ => isDigit c
  | [] => false

theorem number?_of_startsDecimal {text : Text} (h : startsDecimal text = true) :
    number? text = some (decimal text) := by
  unfold number?
  unfold startsDecimal at h
  split at h
  · simp_all
  · simp_all
  · simp_all
  · cases h

theorem number?_cases {text : Text} {scan : Scan} (h : number? text = some scan) :
    (∃ letter rest accepts, text = '0' :: letter :: rest ∧
      radixDigits? letter = some accepts ∧ scan = radix accepts text) ∨
      startsDecimal text = true ∧ scan = decimal text := by
  unfold number? at h
  split at h
  · next letter rest =>
    cases hletter : radixDigits? letter with
    | none => simp_all [startsDecimal]
    | some accepts =>
      rw [hletter] at h
      cases h
      exact Or.inl ⟨letter, rest, accepts, rfl, hletter, rfl⟩
  · split at h
    · cases h
      exact Or.inr ⟨‹_›, rfl⟩
    · cases h
  · split at h
    · cases h
      refine Or.inr ⟨?_, rfl⟩
      rw [startsDecimal] <;> assumption
    · cases h
  · cases h

/-- The first two characters tell whether a decimal number starts. -/
theorem startsDecimal_append {body : Text} (hbody : 2 ≤ body.length) (tail behind : Text) :
    startsDecimal (body ++ behind) = startsDecimal (body ++ tail) := by
  obtain ⟨c, d, body, rfl⟩ : ∃ c d rest, body = c :: d :: rest := by
    match body, hbody with
    | c :: d :: rest, _ => exact ⟨c, d, rest, rfl⟩
  simp only [List.cons_append]
  by_cases hzero : c = '0'
  · subst hzero
    rfl
  by_cases hdot : c = '.'
  · subst hdot
    rfl
  rw [startsDecimal, startsDecimal] <;> simp [hzero, hdot]

theorem startsDecimal_of_isDigit {c : Char} {text : Text} (hc : isDigit c = true)
    (htext : StopsWord text) : startsDecimal (c :: text) = true := by
  unfold startsDecimal
  split
  · next letter rest heq =>
    obtain ⟨rfl, rfl⟩ := List.cons.inj heq
    cases hletter : radixDigits? letter with
    | none => rfl
    | some accepts => exact absurd rfl (htext.ne_letter (radixDigits?_cases hletter).1 letter rfl)
  · next heq =>
    obtain ⟨rfl, rfl⟩ := List.cons.inj heq
    cases hc
  · next heq =>
    obtain ⟨rfl, rfl⟩ := List.cons.inj heq
    exact hc
  · next heq => cases heq

theorem isDigit_of_startsDecimal {c : Char} {text : Text} (h : startsDecimal (c :: text) = true)
    (hc : c ≠ '.') : isDigit c = true := by
  unfold startsDecimal at h
  split at h
  · next heq =>
    obtain ⟨rfl, rfl⟩ := List.cons.inj heq
    rfl
  · next heq => exact absurd (List.cons.inj heq).1 hc
  · next heq =>
    obtain ⟨rfl, rfl⟩ := List.cons.inj heq
    exact h
  · next heq => cases heq

theorem IsClosed.startsDecimal_append {body tail behind : Text} (h : IsClosed body)
    (hfilled : body ≠ []) (hstart : startsDecimal (body ++ tail) = true)
    (hb : StopsWord behind) : startsDecimal (body ++ behind) = true := by
  by_cases hlong : 2 ≤ body.length
  · rw [Lexeme.startsDecimal_append hlong tail behind, hstart]
  · obtain ⟨c, rfl⟩ : ∃ c, body = [c] := by
      have := List.length_pos_iff.2 hfilled
      exact List.length_eq_one_iff.1 (by omega)
    have hc : c ≠ '.' := by
      rintro rfl
      exact getLast?_ne_dot h.last rfl
    exact startsDecimal_of_isDigit (isDigit_of_startsDecimal hstart hc) hb

theorem startsDecimal_point_append {whole tail : Text} (h : IsDigits isDigit whole)
    (hlength : decimal (whole ++ ['.'] ++ tail) = { length := (whole ++ ['.']).length })
    (hstart : startsDecimal (whole ++ ['.'] ++ tail) = true) (behind : Text) :
    startsDecimal (whole ++ ['.'] ++ behind) = true := by
  by_cases hwhole : whole = []
  · -- A dot alone would have taken in the digit behind it.
    subst hwhole
    exfalso
    cases tail with
    | nil => cases hstart
    | cons c tail =>
      have hdigit : isDigit c = true := hstart
      have hpast : (decimal ('.' :: c :: tail)).GoesPast 1 :=
        decimal_point_goesPast h (by simp [extendsPoint, hdigit])
      rw [show decimal ('.' :: c :: tail) = { length := 1 } from hlength] at hpast
      simp [Scan.GoesPast] at hpast
  · have hlong : 2 ≤ (whole ++ ['.']).length := by
      have := List.length_pos_iff.2 hwhole
      simp only [List.length_append, List.length_singleton]
      omega
    rw [startsDecimal_append hlong tail, hstart]

theorem isPlainInteger_of_startsDecimal {body tail : Text} (hfilled : body ≠ [])
    (hstart : startsDecimal (body ++ tail) = true)
    (hall : ∀ c ∈ body, isDigit c = true ∨ c = '_') : isPlainInteger body = true := by
  obtain ⟨c, body, rfl⟩ := List.exists_cons_of_ne_nil hfilled
  have hc : c ≠ '.' := by
    rintro rfl
    rcases hall '.' (by simp) with h | h <;> cases h
  have hdigit := isDigit_of_startsDecimal hstart hc
  unfold isPlainInteger
  simp only [List.head?_cons, Option.any_some, hdigit, Bool.true_and, List.all_eq_true,
    Bool.or_eq_true, beq_iff_eq]
  exact hall

/-! ## Any number -/

/-- What a page puts behind a piece: no word behind a word, and no dot behind an integer. -/
structure SetApart (piece behind : Text) : Prop where
  word : (∀ c ∈ piece.getLast?, isOperator c = false) → StopsWord behind
  integer : isPlainInteger piece = true → ∀ c ∈ behind.head?, c ≠ '.'

/-- A number is read back from a page, unless it ends in a dot and takes in what stands behind
it. -/
theorem exists_body_of_number? {text : Text} {scan : Scan} (h : number? text = some scan)
    (hf : scan.fault = none) :
    ∃ body tail, text = body ++ tail ∧ scan = { length := body.length } ∧
      ∀ behind, SetApart body behind → ∃ again, number? (body ++ behind) = some again ∧
        if body.getLast? = some '.' ∧ extendsPoint behind = true then again.GoesPast body.length
        else again = scan := by
  have hpos := length_number?_pos h
  rcases number?_cases h with ⟨letter, rest, accepts, rfl, hletter, rfl⟩ | ⟨hstart, rfl⟩
  · obtain ⟨body, tail, rfl, hlength, hlast, hstable⟩ := exists_body_of_radix hletter hf
    refine ⟨'0' :: letter :: body, tail, rfl, hlength, fun behind hb => ?_⟩
    refine ⟨radix accepts ('0' :: letter :: (body ++ behind)), by simp [number?, hletter], ?_⟩
    rw [if_neg fun hdot => getLast?_ne_dot hlast hdot.1, hlength]
    exact hstable behind (hb.word hlast)
  · obtain ⟨body, tail, rfl, hlength, hbody⟩ := exists_body_of_decimal hf
    have hfilled : body ≠ [] := by
      rintro rfl
      rw [hlength] at hpos
      cases hpos
    refine ⟨body, tail, rfl, hlength, fun behind hb => ?_⟩
    refine ⟨decimal (body ++ behind), number?_of_startsDecimal ?_, ?_⟩
    · rcases hbody with ⟨whole, rfl, hwhole⟩ | hclosed
      · exact startsDecimal_point_append hwhole hlength hstart behind
      · exact hclosed.startsDecimal_append hfilled hstart (hb.word hclosed.last)
    · rcases hbody with ⟨whole, rfl, hwhole⟩ | hclosed
      · rw [hlength, List.length_append, List.append_assoc]
        split
        · next hdot => exact decimal_point_goesPast hwhole hdot.2
        · next hdot =>
          apply decimal_point hwhole
          simpa using hdot
      · rw [if_neg fun hdot => getLast?_ne_dot hclosed.last hdot.1, hlength]
        refine hclosed.stable behind (hb.word hclosed.last) fun hall => ?_
        exact hb.integer (isPlainInteger_of_startsDecimal hfilled hstart hall)

end Lexeme

end ScriptMinifier
