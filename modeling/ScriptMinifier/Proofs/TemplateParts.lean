-- The grammar of templates. A template holds substitutions, and a substitution holds braces,
-- strings, comments and more templates, each of which says by itself where it ends. Comments,
-- strings and single bytes are scanned up to the end that the grammar gives.
import ScriptMinifier.Proofs.ByteLiterals

namespace ScriptMinifier

open Character

/-! ## Ends -/

namespace Code

/-- The scan has come to `stop` without an error. -/
def Reaches (stop : Nat) (result : Option Halt) : Prop :=
  ∃ crossed, result = some { next := stop, crossed }

/-- A block comment, from its `/*` to the first `*/` after that. -/
structure IsBlockComment (code : Code) (start stop : Nat) : Prop where
  slash : code.peek start = some '/'
  star : code.peek (start + 1) = some '*'
  closed : ∃ last, start + 2 ≤ last ∧ stop = last + 2 ∧ code.peek last = some '*' ∧
    code.peek (last + 1) = some '/' ∧
    ∀ i, start + 2 ≤ i → i < last → ¬ (code.peek i = some '*' ∧ code.peek (i + 1) = some '/')

/-- A line comment, from its `//` up to the end of its line or of the code. -/
structure IsLineComment (code : Code) (start stop : Nat) : Prop where
  slash : code.peek start = some '/'
  again : code.peek (start + 1) = some '/'
  le : start ≤ stop
  inside : ∀ i, start ≤ i → i < stop → ∃ c, code.peek i = some c ∧ isLineTerminator c = false
  ended : ∀ c, code.peek stop = some c → isLineTerminator c = true

end Code

/-! ## The grammar -/

/-- What a template is made of. -/
inductive TemplatePart where
  | template
  /-- Any number of items of the text of a template. -/
  | text
  | textItem
  /-- A nested script with the brace that ends it. -/
  | substitution
  /-- Any number of items of a nested script. -/
  | script
  | scriptItem

/-- The bytes from `start` up to `stop` are such a part of a template. -/
inductive Code.IsPart (code : Code) : TemplatePart → (start stop : Nat) → Prop where
  | template {start stop : Nat} (opened : code.peek start = some '`')
      (inside : IsPart code .text (start + 1) stop) (closed : code.peek stop = some '`') :
      IsPart code .template start (stop + 1)
  | textEnd (offset : Nat) : IsPart code .text offset offset
  | textMore {start middle stop : Nat} (first : IsPart code .textItem start middle)
      (more : IsPart code .text middle stop) : IsPart code .text start stop
  | escape {start : Nat} {c : Char} (backslash : code.peek start = some '\\')
      (escaped : code.peek (start + 1) = some c) : IsPart code .textItem start (start + 2)
  /-- A dollar sign with a brace behind it always opens a substitution. -/
  | opening {start stop : Nat} (dollar : code.peek start = some '$')
      (brace : code.peek (start + 1) = some '{')
      (inside : IsPart code .substitution (start + 2) stop) : IsPart code .textItem start stop
  | textByte {start : Nat} {c : Char} (byte : code.peek start = some c) (plain : c ≠ '`' ∧ c ≠ '\\')
      (noOpening : ¬ (c = '$' ∧ code.peek (start + 1) = some '{')) :
      IsPart code .textItem start (start + 1)
  | substitution {start stop : Nat} (inside : IsPart code .script start stop)
      (closed : code.peek stop = some '}') : IsPart code .substitution start (stop + 1)
  | scriptEnd (offset : Nat) : IsPart code .script offset offset
  | scriptMore {start middle stop : Nat} (first : IsPart code .scriptItem start middle)
      (more : IsPart code .script middle stop) : IsPart code .script start stop
  | braces {start stop : Nat} (opened : code.peek start = some '{')
      (inside : IsPart code .script (start + 1) stop) (closed : code.peek stop = some '}') :
      IsPart code .scriptItem start (stop + 1)
  /-- A string goes as far as its own scan accepts it. -/
  | string {start stop : Nat} {quote : Char} (opened : code.peek start = some quote)
      (quoted : Lexeme.isQuote quote = true) (read : Code.Reaches stop (code.quoted? start)) :
      IsPart code .scriptItem start stop
  | nested {start stop : Nat} (inside : IsPart code .template start stop) :
      IsPart code .scriptItem start stop
  | blockComment {start stop : Nat} (comment : code.IsBlockComment start stop) :
      IsPart code .scriptItem start stop
  | lineComment {start stop : Nat} (comment : code.IsLineComment start stop) :
      IsPart code .scriptItem start stop
  /-- Any other byte, a slash included, if no comment starts with it. -/
  | scriptByte {start : Nat} {c : Char} (byte : code.peek start = some c)
      (plain : c ∉ ['{', '}', '\'', '"', '`'])
      (noComment : ¬ (c = '/' ∧
        (code.peek (start + 1) = some '*' ∨ code.peek (start + 1) = some '/'))) :
      IsPart code .scriptItem start (start + 1)

/-! ## Comments are read to their end -/

theorem Lexeme.commentEnd?_eq_some_iff {read n : Nat} {text : Text} :
    commentEnd? read text = some n ↔
      ∃ k, n = read + k + 2 ∧ text[k]? = some '*' ∧ text[k + 1]? = some '/' ∧
        ∀ i < k, ¬ (text[i]? = some '*' ∧ text[i + 1]? = some '/') := by
  fun_induction commentEnd? read text with
  | case1 read => simp
  | case2 read text =>
    constructor
    · intro h
      obtain rfl := Option.some.inj h
      exact ⟨0, rfl, rfl, rfl, fun i hi => absurd hi (Nat.not_lt_zero i)⟩
    · rintro ⟨k, rfl, _, _, hfirst⟩
      cases k with
      | zero => rfl
      | succ k => exact absurd ⟨rfl, rfl⟩ (hfirst 0 (Nat.succ_pos k))
  | case3 read c text hopen ih =>
    have hhere : ¬ ((c :: text)[0]? = some '*' ∧ (c :: text)[1]? = some '/') := by
      rintro ⟨hstar, hslash⟩
      cases text with
      | nil => cases hslash
      | cons d text => exact hopen text (Option.some.inj hstar) (by rw [Option.some.inj hslash])
    rw [ih]
    constructor
    · rintro ⟨k, rfl, hstar, hslash, hfirst⟩
      refine ⟨k + 1, by omega, hstar, hslash, fun i hi => ?_⟩
      cases i with
      | zero => exact hhere
      | succ i => exact hfirst i (Nat.lt_of_succ_lt_succ hi)
    · rintro ⟨k, rfl, hstar, hslash, hfirst⟩
      cases k with
      | zero => exact absurd ⟨hstar, hslash⟩ hhere
      | succ k =>
        refine ⟨k, by omega, hstar, hslash, fun i hi => ?_⟩
        exact hfirst (i + 1) (Nat.succ_lt_succ hi)

namespace Code

variable {code : Code} {start stop offset : Nat}

theorem getElem?_of_rest? {rest : Text} (h : code.rest? offset = some rest) (i : Nat) :
    rest[i]? = code.peek (offset + i) := by
  unfold rest? at h
  split at h
  · obtain rfl := Option.some.inj h
    rw [List.getElem?_map, List.getElem?_drop]
    rfl
  · cases h

theorem isPrefixOf_pair_iff {rest : Text} (h : code.rest? offset = some rest) (c d : Char) :
    [c, d].isPrefixOf rest = true ↔
      code.peek offset = some c ∧ code.peek (offset + 1) = some d := by
  have hfirst := getElem?_of_rest? h 0
  rw [← getElem?_of_rest? h 1, show code.peek offset = rest[0]? from hfirst.symm]
  cases rest with
  | nil => simp
  | cons a rest =>
    cases rest with
    | nil => simp
    | cons b rest => simp [@eq_comm _ a, @eq_comm _ b]

@[simp]
theorem reaches_some {next : Nat} {crossed : Bool} :
    Reaches stop (some { next, crossed }) ↔ stop = next := by
  constructor
  · rintro ⟨crossed', h⟩
    exact (congrArg Halt.next (Option.some.inj h)).symm
  · rintro rfl
    exact ⟨crossed, rfl⟩

theorem reaches_of_error {halt : Halt} (h : halt.error = none) :
    Reaches halt.next (some halt) := by
  obtain ⟨next, error, crossed⟩ := halt
  exact ⟨crossed, by rw [show error = none from h]⟩

theorem exists_of_reaches_bind {α : Type} {result : Option α} {next : α → Option Halt}
    (h : Reaches stop (result >>= next)) :
    ∃ found, result = some found ∧ Reaches stop (next found) := by
  obtain ⟨crossed, h⟩ := h
  obtain ⟨found, hfound, h⟩ := Option.bind_eq_some_iff.1 h
  exact ⟨found, hfound, crossed, h⟩

theorem not_reaches_fail? (kind : LexError.Kind) (next : Nat) (crossed : Bool) :
    ¬ Reaches stop (code.fail? kind start next crossed) := by
  rintro ⟨crossed', h⟩
  unfold fail? at h
  cases hposition : code.position? start with
  | none =>
    rw [hposition] at h
    cases h
  | some position =>
    rw [hposition] at h
    cases h

/-- A block comment ends where its end is found among the bytes. -/
theorem isBlockComment_iff (hslash : code.peek start = some '/')
    (hstar : code.peek (start + 1) = some '*') {rest : Text}
    (hrest : code.rest? (start + 2) = some rest) :
    code.IsBlockComment start stop ↔
      ∃ count, Lexeme.commentEnd? 0 rest = some count ∧ stop = start + 2 + count := by
  constructor
  · rintro ⟨_, _, last, hle, rfl, hlast, hclose, hfirst⟩
    obtain ⟨k, rfl⟩ := Nat.exists_eq_add_of_le hle
    refine ⟨0 + k + 2, Lexeme.commentEnd?_eq_some_iff.2 ⟨k, rfl, ?_, ?_, fun i hi => ?_⟩, by omega⟩
    · rw [getElem?_of_rest? hrest, hlast]
    · rw [getElem?_of_rest? hrest]
      exact hclose
    · rw [getElem?_of_rest? hrest, getElem?_of_rest? hrest, ← Nat.add_assoc]
      exact hfirst (start + 2 + i) (Nat.le_add_right _ _) (by omega)
  · rintro ⟨count, hend, rfl⟩
    obtain ⟨k, rfl, hlast, hclose, hfirst⟩ := Lexeme.commentEnd?_eq_some_iff.1 hend
    rw [getElem?_of_rest? hrest] at hlast hclose
    refine ⟨hslash, hstar, start + 2 + k, Nat.le_add_right _ _, by omega, hlast, hclose, ?_⟩
    intro i hle hlt
    obtain ⟨j, rfl⟩ := Nat.exists_eq_add_of_le hle
    have hnot := hfirst j (by omega)
    rwa [getElem?_of_rest? hrest, getElem?_of_rest? hrest, ← Nat.add_assoc] at hnot

theorem reaches_blockComment?_iff (hslash : code.peek start = some '/')
    (hstar : code.peek (start + 1) = some '*') :
    Reaches stop (code.blockComment? start) ↔ code.IsBlockComment start stop := by
  have hinside : start + 2 ≤ code.length := lt_length_of_peek hstar
  have hrest : code.rest? (start + 2) = some ((code.drop (start + 2)).map charOfByte) :=
    if_pos hinside
  rw [isBlockComment_iff hslash hstar hrest, blockComment?, step?, if_pos hinside]
  simp only [Option.bind_eq_bind, Option.bind_some, hrest]
  cases hend : Lexeme.commentEnd? 0 ((code.drop (start + 2)).map charOfByte) with
  | none => simp [not_reaches_fail?]
  | some count =>
    obtain ⟨k, rfl, _, hclose, _⟩ := Lexeme.commentEnd?_eq_some_iff.1 hend
    rw [getElem?_of_rest? hrest] at hclose
    have hlength := lt_length_of_peek hclose
    have hslice : code.slice? start (start + 2 + (0 + k + 2)) =
        some ((code.take (start + 2 + (0 + k + 2))).drop start) := if_pos ⟨by omega, by omega⟩
    simp only [hslice, Option.bind_some, Option.pure_def, reaches_some, Option.some.injEq,
      exists_eq_left']

/-- A run of bytes that end no line goes up to the end of the comment. -/
theorem isLineComment_of_rest? (hslash : code.peek start = some '/')
    (hagain : code.peek (start + 1) = some '/') {rest : Text}
    (hrest : code.rest? start = some rest) :
    code.IsLineComment start
      (start + (rest.takeWhile fun c => !isLineTerminator c).length) := by
  have hget := getElem?_of_rest? hrest
  have hsplit := List.takeWhile_append_dropWhile (p := fun c => !isLineTerminator c) (l := rest)
  generalize hrun : (rest.takeWhile fun c => !isLineTerminator c) = run at hsplit
  generalize hleft : (rest.dropWhile fun c => !isLineTerminator c) = left at hsplit
  refine ⟨hslash, hagain, Nat.le_add_right _ _, fun i hle hlt => ?_, fun c hc => ?_⟩
  · obtain ⟨j, rfl⟩ := Nat.exists_eq_add_of_le hle
    have hj : j < run.length := by omega
    refine ⟨run[j], ?_, ?_⟩
    · rw [← hget, ← hsplit, List.getElem?_append_left hj, List.getElem?_eq_getElem hj]
    · have hmem : run[j] ∈ rest.takeWhile fun c => !isLineTerminator c := by
        rw [hrun]
        exact List.getElem_mem hj
      simpa using List.all_eq_true.1 List.all_takeWhile _ hmem
  · rw [← hget, ← hsplit, List.getElem?_append_right (Nat.le_refl _), Nat.sub_self,
      ← List.head?_eq_getElem?, ← hleft] at hc
    have hfirst := List.head?_dropWhile_not (fun c => !isLineTerminator c) rest
    rw [hc] at hfirst
    simpa using hfirst

theorem IsLineComment.le_of_isLineComment {other : Nat} (h : code.IsLineComment start stop)
    (hother : code.IsLineComment start other) : stop ≤ other := by
  by_contra hlt
  obtain ⟨c, hc, hkept⟩ := h.inside other hother.le (by omega)
  rw [hother.ended c hc] at hkept
  cases hkept

theorem reaches_lineComment?_iff (hslash : code.peek start = some '/')
    (hagain : code.peek (start + 1) = some '/') :
    Reaches stop (code.lineComment? start) ↔ code.IsLineComment start stop := by
  obtain ⟨rest, hrest⟩ := rest?_of_peek hslash
  have hcomment := isLineComment_of_rest? hslash hagain hrest
  rw [lineComment?, hrest]
  simp only [Option.bind_eq_bind, Option.bind_some, Option.pure_def, reaches_some]
  constructor
  · rintro rfl
    exact hcomment
  · intro h
    exact Nat.le_antisymm (h.le_of_isLineComment hcomment) (hcomment.le_of_isLineComment h)

/-! ## Parts go on -/

theorem lt_of_reaches_quotedFrom? {origin next : Nat} {quote : Char}
    (h : Reaches stop (code.quotedFrom? origin quote next)) : next < stop := by
  fun_induction Code.quotedFrom? code origin quote next with
  | case1 next hpeek => exact absurd h (not_reaches_fail? _ _ _)
  | case2 next c hpeek hc hlast => exact absurd h (not_reaches_fail? _ _ _)
  | case3 next c hpeek hc d hnext hd ih =>
    have := ih h
    omega
  | case4 next c hpeek hc d hnext hd ih =>
    have := ih h
    omega
  | case5 next c hpeek hc hquote =>
    have := reaches_some.1 h
    omega
  | case6 next c hpeek hc hquote hends => exact absurd h (not_reaches_fail? _ _ _)
  | case7 next c hpeek hc hquote hends ih =>
    have := ih h
    omega

/-- The scan of a template does not end before it has moved on. -/
theorem lt_of_reaches_templateFrom? {origin depth next : Nat} {crossed : Bool}
    (h : Reaches stop (code.templateFrom? origin depth next crossed)) : next < stop := by
  fun_induction Code.templateFrom? code origin depth next crossed with
  | case1 | case2 => exact absurd h (not_reaches_fail? _ _ _)
  | case3 _ _ _ _ _ _ _ _ ih =>
    have := ih h
    omega
  | case4 =>
    have := reaches_some.1 h
    omega
  | case5 _ _ _ _ _ _ _ _ ih =>
    obtain ⟨_, _, h⟩ := exists_of_reaches_bind h
    have := ih h
    omega
  | case6 _ _ _ _ _ _ _ _ ih =>
    have := ih h
    omega
  | case7 _ _ _ _ _ _ _ _ ih | case8 _ _ _ _ _ _ _ _ _ ih =>
    obtain ⟨_, _, h⟩ := exists_of_reaches_bind h
    have := ih h
    omega
  | case9 _ _ _ _ _ _ _ _ _ _ ih =>
    obtain ⟨item, _, h⟩ := exists_of_reaches_bind h
    split at h
    · next herror =>
      obtain ⟨_, h⟩ := h
      rw [show item.error = none from congrArg Halt.error (Option.some.inj h)] at herror
      cases herror
    · split at h
      · next hforward => exact Nat.lt_trans hforward (ih item hforward h)
      · obtain ⟨_, h⟩ := h
        cases h

theorem lt_of_reaches_quoted? (h : Reaches stop (code.quoted? start)) : start < stop := by
  obtain ⟨crossed, h⟩ := h
  obtain ⟨quote, hpeek, h⟩ := Option.bind_eq_some_iff.1 h
  rw [step?_of_peek hpeek] at h
  exact Nat.lt_of_succ_lt (lt_of_reaches_quotedFrom? ⟨crossed, h⟩)

end Code

namespace Code.IsPart

variable {code : Code} {part : TemplatePart} {start stop : Nat}

/-- A part does not end before it starts, and only a list of items can be empty. -/
theorem progress (h : code.IsPart part start stop) :
    start ≤ stop ∧ (part ≠ .text → part ≠ .script → start < stop) := by
  induction h with
  | textEnd | scriptEnd => simp
  | textMore _ _ ihfirst ihmore | scriptMore _ _ ihfirst ihmore =>
    have hfirst := ihfirst.2 (by simp) (by simp)
    refine ⟨by omega, by simp⟩
  | escape | textByte | scriptByte => omega
  | template _ _ _ ih | substitution _ _ ih | braces _ _ _ ih =>
    exact ⟨by omega, fun _ _ => by omega⟩
  | opening _ _ _ ih => exact ⟨by omega, fun _ _ => by omega⟩
  | nested _ ih => exact ⟨ih.1, fun _ _ => ih.2 (by simp) (by simp)⟩
  | string _ _ hread =>
    have := lt_of_reaches_quoted? hread
    exact ⟨by omega, fun _ _ => this⟩
  | blockComment comment =>
    obtain ⟨last, hle, rfl, _⟩ := comment.closed
    exact ⟨by omega, fun _ _ => by omega⟩
  | lineComment comment =>
    refine ⟨comment.le, fun _ _ => Nat.lt_of_le_of_ne comment.le ?_⟩
    rintro rfl
    cases comment.ended '/' comment.slash

end Code.IsPart

/-! ## Items of a script -/

namespace Code

variable {code : Code} {start stop : Nat} {c : Char}

/-- What a substitution steps over, told by its first two bytes. -/
theorem substitutionItem?_eq (hpeek : code.peek start = some c) :
    code.substitutionItem? start c =
      if Lexeme.isQuote c then code.quoted? start
      else if c = '/' ∧ code.peek (start + 1) = some '*' then code.blockComment? start
      else if c = '/' ∧ code.peek (start + 1) = some '/' then code.lineComment? start
      else some { next := start + 1 } := by
  obtain ⟨rest, hrest⟩ := rest?_of_peek hpeek
  have hpair : ∀ d, ['/', d].isPrefixOf (c :: rest) = true ↔
      c = '/' ∧ code.peek (start + 1) = some d := by
    intro d
    rw [isPrefixOf_pair_iff hrest, hpeek, Option.some.injEq]
  rw [substitutionItem?, hrest, step?_of_peek hpeek]
  simp only [Option.bind_eq_bind, Option.bind_some, Option.pure_def, hpair]

/-- An item that does not start with a brace or a backtick is a string, a comment or one byte. -/
theorem IsPart.scriptItem_cases (h : code.IsPart .scriptItem start stop)
    (hpeek : code.peek start = some c) (hplain : c ∉ ['{', '}', '`']) :
    (Lexeme.isQuote c = true ∧ Reaches stop (code.quoted? start)) ∨
    code.IsBlockComment start stop ∨ code.IsLineComment start stop ∨
    (Lexeme.isQuote c = false ∧ stop = start + 1 ∧ ¬ (c = '/' ∧
      (code.peek (start + 1) = some '*' ∨ code.peek (start + 1) = some '/'))) := by
  have hfirst : ∀ {d : Char}, code.peek start = some d → d = c := fun hd =>
    Option.some.inj (hd.symm.trans hpeek)
  cases h with
  | braces hopened =>
    rw [← hfirst hopened] at hplain
    simp at hplain
  | nested hinside =>
    cases hinside with
    | template hopened =>
      rw [← hfirst hopened] at hplain
      simp at hplain
  | string hopened hquote hread =>
    rw [hfirst hopened] at hquote
    exact Or.inl ⟨hquote, hread⟩
  | blockComment comment => exact Or.inr (Or.inl comment)
  | lineComment comment => exact Or.inr (Or.inr (Or.inl comment))
  | scriptByte hbyte hbare hcomment =>
    obtain rfl := hfirst hbyte
    refine Or.inr (Or.inr (Or.inr ⟨?_, rfl, hcomment⟩))
    simp only [List.mem_cons, not_or] at hbare
    simp [Lexeme.isQuote, hbare]

/-- A scan of a string, a comment or one byte ends where the grammar says. -/
theorem reaches_substitutionItem?_iff (hpeek : code.peek start = some c)
    (hplain : c ∉ ['{', '}', '`']) :
    Reaches stop (code.substitutionItem? start c) ↔ code.IsPart .scriptItem start stop := by
  rw [substitutionItem?_eq hpeek]
  constructor
  · intro h
    split at h
    · next hquote => exact .string hpeek hquote h
    · next hquote =>
      split at h
      · next hblock =>
        obtain ⟨rfl, hstar⟩ := hblock
        exact .blockComment ((reaches_blockComment?_iff hpeek hstar).1 h)
      · next hblock =>
        split at h
        · next hline =>
          obtain ⟨rfl, hslash⟩ := hline
          exact .lineComment ((reaches_lineComment?_iff hpeek hslash).1 h)
        · next hline =>
          obtain rfl := reaches_some.1 h
          refine .scriptByte hpeek ?_ ?_
          · simp only [List.mem_cons, not_or] at hplain ⊢
            simp only [Lexeme.isQuote, Bool.or_eq_true, beq_iff_eq, not_or] at hquote
            simp [hplain, hquote]
          · rw [and_or_left, not_or]
            exact ⟨hblock, hline⟩
  · intro h
    rcases h.scriptItem_cases hpeek hplain with
      ⟨hquote, hread⟩ | hblock | hline | ⟨hquote, rfl, hbare⟩
    · rwa [if_pos hquote]
    · obtain rfl : c = '/' := Option.some.inj (hpeek.symm.trans hblock.slash)
      rw [if_neg (by decide), if_pos ⟨rfl, hblock.star⟩]
      exact (reaches_blockComment?_iff hpeek hblock.star).2 hblock
    · obtain rfl : c = '/' := Option.some.inj (hpeek.symm.trans hline.slash)
      rw [if_neg (by decide), if_neg (by simp [hline.again]), if_pos ⟨rfl, hline.again⟩]
      exact (reaches_lineComment?_iff hpeek hline.again).2 hline
    · rw [and_or_left, not_or] at hbare
      rw [if_neg (by simp [hquote]), if_neg hbare.1, if_neg hbare.2]
      exact reaches_some.2 rfl

theorem plain_of_isQuote (h : Lexeme.isQuote c = true) : c ∉ ['{', '}', '`'] := by
  intro hmem
  simp only [List.mem_cons, List.not_mem_nil, or_false] at hmem
  rcases hmem with rfl | rfl | rfl <;> cases h

theorem plain_of_not_mem (h : c ∉ ['{', '}', '\'', '"', '`']) : c ∉ ['{', '}', '`'] := by
  simp only [List.mem_cons, not_or] at h ⊢
  simp [h]

/-- An item of a script is a pair of braces or a template, or its first byte is none of theirs. -/
theorem IsPart.scriptItem_starts (h : code.IsPart .scriptItem start stop) :
    (code.peek start = some '{' ∧ ∃ last, code.IsPart .script (start + 1) last ∧
      code.peek last = some '}' ∧ stop = last + 1) ∨
    (code.peek start = some '`' ∧ code.IsPart .template start stop) ∨
    ∃ c, code.peek start = some c ∧ c ∉ ['{', '}', '`'] := by
  cases h with
  | braces hopened hinside hclosed => exact Or.inl ⟨hopened, _, hinside, hclosed, rfl⟩
  | nested hinside =>
    refine Or.inr (Or.inl ⟨?_, hinside⟩)
    cases hinside with
    | template hopened => exact hopened
  | string hopened hquote => exact Or.inr (Or.inr ⟨_, hopened, plain_of_isQuote hquote⟩)
  | blockComment comment => exact Or.inr (Or.inr ⟨'/', comment.slash, by decide⟩)
  | lineComment comment => exact Or.inr (Or.inr ⟨'/', comment.slash, by decide⟩)
  | scriptByte hbyte hplain => exact Or.inr (Or.inr ⟨_, hbyte, plain_of_not_mem hplain⟩)

end Code

/-! ## A part has one end -/

namespace Code

variable {code : Code} {part : TemplatePart} {start stop other : Nat} {c : Char}

theorem IsPart.textItem_ne_backtick (h : code.IsPart .textItem start stop) :
    code.peek start ≠ some '`' := by
  intro hpeek
  cases h with
  | escape hbackslash =>
    rw [hpeek] at hbackslash
    cases hbackslash
  | opening hdollar =>
    rw [hpeek] at hdollar
    cases hdollar
  | textByte hbyte hplain =>
    rw [hpeek] at hbyte
    exact hplain.1 (Option.some.inj hbyte).symm

theorem IsPart.scriptItem_ne_braceClose (h : code.IsPart .scriptItem start stop) :
    code.peek start ≠ some '}' := by
  intro hpeek
  rcases h.scriptItem_starts with ⟨hopened, _⟩ | ⟨hopened, _⟩ | ⟨c, hbyte, hplain⟩
  · rw [hpeek] at hopened
    cases hopened
  · rw [hpeek] at hopened
    cases hopened
  · rw [hpeek] at hbyte
    cases hbyte
    simp at hplain

theorem IsPart.eq_of_plain (hpeek : code.peek start = some c) (hplain : c ∉ ['{', '}', '`'])
    (h : code.IsPart .scriptItem start stop) (hother : code.IsPart .scriptItem start other) :
    other = stop := by
  obtain ⟨crossed, hread⟩ := (reaches_substitutionItem?_iff hpeek hplain).2 h
  obtain ⟨crossed', hread'⟩ := (reaches_substitutionItem?_iff hpeek hplain).2 hother
  rw [hread] at hread'
  exact (congrArg Halt.next (Option.some.inj hread')).symm

/-- The part ends there and nowhere else. A list of items could end behind each of them, but only
once in front of the mark that closes it. -/
def HasOneEnd (code : Code) : TemplatePart → (start stop : Nat) → Prop
  | .text, start, stop => code.peek stop = some '`' →
    ∀ other, code.IsPart .text start other → code.peek other = some '`' → other = stop
  | .script, start, stop => code.peek stop = some '}' →
    ∀ other, code.IsPart .script start other → code.peek other = some '}' → other = stop
  | part, start, stop => ∀ other, code.IsPart part start other → other = stop

/-- The first byte of an item tells which item it is. -/
theorem IsPart.hasOneEnd (h : code.IsPart part start stop) : code.HasOneEnd part start stop := by
  induction h with
  | template _ _ hclosed ih =>
    intro other hother
    cases hother with
    | template _ hinside' hclosed' => rw [ih hclosed _ hinside' hclosed']
  | textEnd =>
    intro hstop other hother hend
    cases hother with
    | textEnd => rfl
    | textMore hfirst' => exact absurd hstop hfirst'.textItem_ne_backtick
  | textMore hfirst _ ihfirst ihmore =>
    intro hstop other hother hend
    cases hother with
    | textEnd => exact absurd hend hfirst.textItem_ne_backtick
    | textMore hfirst' hmore' =>
      obtain rfl := ihfirst _ hfirst'
      exact ihmore hstop _ hmore' hend
  | escape hbackslash =>
    intro other hother
    cases hother with
    | escape => rfl
    | opening hdollar =>
      rw [hbackslash] at hdollar
      cases hdollar
    | textByte hbyte hplain =>
      rw [hbackslash] at hbyte
      exact absurd (Option.some.inj hbyte).symm hplain.2
  | opening hdollar hbrace _ ih =>
    intro other hother
    cases hother with
    | escape hbackslash =>
      rw [hdollar] at hbackslash
      cases hbackslash
    | opening _ _ hinside' => exact ih _ hinside'
    | textByte hbyte _ hnone =>
      rw [hdollar] at hbyte
      exact absurd ⟨(Option.some.inj hbyte).symm, hbrace⟩ hnone
  | textByte hbyte hplain hnone =>
    intro other hother
    cases hother with
    | escape hbackslash =>
      rw [hbyte] at hbackslash
      exact absurd (Option.some.inj hbackslash) hplain.2
    | opening hdollar hbrace =>
      rw [hbyte] at hdollar
      exact absurd ⟨Option.some.inj hdollar, hbrace⟩ hnone
    | textByte => rfl
  | substitution _ hclosed ih =>
    intro other hother
    cases hother with
    | substitution hinside' hclosed' => rw [ih hclosed _ hinside' hclosed']
  | scriptEnd =>
    intro hstop other hother hend
    cases hother with
    | scriptEnd => rfl
    | scriptMore hfirst' => exact absurd hstop hfirst'.scriptItem_ne_braceClose
  | scriptMore hfirst _ ihfirst ihmore =>
    intro hstop other hother hend
    cases hother with
    | scriptEnd => exact absurd hend hfirst.scriptItem_ne_braceClose
    | scriptMore hfirst' hmore' =>
      obtain rfl := ihfirst _ hfirst'
      exact ihmore hstop _ hmore' hend
  | braces hopened _ hclosed ih =>
    intro other hother
    rcases hother.scriptItem_starts with ⟨_, last, hinside', hclosed', rfl⟩ | ⟨hpeek, _⟩ |
      ⟨c, hpeek, hplain⟩
    · rw [ih hclosed _ hinside' hclosed']
    · rw [hopened] at hpeek
      cases hpeek
    · rw [hopened] at hpeek
      cases hpeek
      simp at hplain
  | nested hinside ih =>
    intro other hother
    cases hinside with
    | template hopened =>
      rcases hother.scriptItem_starts with ⟨hpeek, _⟩ | ⟨_, hinside'⟩ | ⟨c, hpeek, hplain⟩
      · rw [hopened] at hpeek
        cases hpeek
      · exact ih _ hinside'
      · rw [hopened] at hpeek
        cases hpeek
        simp at hplain
  | string hopened hquote hread =>
    exact fun other => eq_of_plain hopened (plain_of_isQuote hquote) (.string hopened hquote hread)
  | blockComment comment =>
    exact fun other => eq_of_plain comment.slash (by decide) (.blockComment comment)
  | lineComment comment =>
    exact fun other => eq_of_plain comment.slash (by decide) (.lineComment comment)
  | scriptByte hbyte hplain hcomment =>
    exact fun other =>
      eq_of_plain hbyte (plain_of_not_mem hplain) (.scriptByte hbyte hplain hcomment)

/-- A template that starts with a substitution has the brace that closes it. -/
theorem IsPart.exists_braceClose (h : code.IsPart .template start stop)
    (hdollar : code.peek (start + 1) = some '$') (hbrace : code.peek (start + 2) = some '{') :
    ∃ i, code.peek i = some '}' := by
  cases h with
  | template _ hinside hclosed =>
    cases hinside with
    | textEnd =>
      rw [hdollar] at hclosed
      cases hclosed
    | textMore hfirst _ =>
      cases hfirst with
      | escape hbackslash =>
        rw [hdollar] at hbackslash
        cases hbackslash
      | opening _ _ hsubstitution =>
        cases hsubstitution with
        | substitution _ hclosed => exact ⟨_, hclosed⟩
      | textByte hbyte _ hnone =>
        rw [hdollar] at hbyte
        exact absurd ⟨(Option.some.inj hbyte).symm, hbrace⟩ hnone

theorem IsPart.template_le_length (h : code.IsPart .template start stop) :
    stop ≤ code.length := by
  cases h with
  | template _ _ hclosed => exact lt_length_of_peek hclosed

theorem IsPart.template_unique (h : code.IsPart .template start stop)
    (hother : code.IsPart .template start other) : stop = other :=
  (h.hasOneEnd other hother).symm

end Code

end ScriptMinifier
