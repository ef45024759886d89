-- Literals on bytes and on characters. The scanners of regular expressions, strings and templates
-- step over one byte after the other, also behind a backslash, so they pass through the middle of
-- characters. No byte there ends anything, and they halt where the scanners of characters do.
import ScriptMinifier.Proofs.ByteScans

namespace ScriptMinifier

open Character

namespace Lexeme

variable {source whole ahead : Text} {start read : Nat}

/-! ## Regular expressions -/

/-- A byte that is not of ASCII is stepped over. -/
theorem regexFrom?_wide {code : Code} (inClass : Bool) (i : Nat) (d : Char)
    (hpeek : code.peek i = some d) (hd : isAscii d = false) :
    code.regexFrom? start inClass i = code.regexFrom? start inClass (i + 1) := by
  rw [Code.regexFrom?, hpeek]
  simp only [beq_of_isAscii hd '\\' rfl, beq_of_isAscii hd '/' rfl, beq_of_isAscii hd '[' rfl,
    beq_of_isAscii hd ']' rfl,
    asciiOnly_isLineTerminator.eq_false hd, Bool.false_and, Bool.false_eq_true, if_false]

theorem regexFrom?_bytes (inClass : Bool) (h : Along source start whole read ahead) :
    Code.regexFrom? source.bytes start inClass (reach start whole read) =
      some ((regexFrom inClass read ahead).halt source start whole) := by
  fun_induction regexFrom inClass read ahead with
  | case1 inClass read =>
    rw [Code.regexFrom?, h.here.peek_nil]
    exact h.stands.fail? ..
  | case2 inClass read =>
    rw [Code.regexFrom?, h.here.peek_ascii rfl, ← h.reach_ascii rfl, h.tail.here.peek_nil]
    exact h.stands.fail? ..
  | case3 inClass read c text hc =>
    have hascii := asciiOnly_isLineTerminator c hc
    have hreach : reach start whole (read + 2) = reach start whole read + 2 := by
      rw [h.tail.reach_ascii hascii, h.reach_ascii rfl]
    rw [Code.regexFrom?, h.here.peek_ascii rfl, ← hreach, ← h.reach_ascii rfl,
      h.tail.here.peek_ascii hascii]
    simp only [BEq.rfl, if_true, hc]
    exact h.stands.fail? ..
  | case4 inClass read c text hc ih =>
    obtain ⟨d, hpeek, hd⟩ := h.tail.here.peek_cons
    rw [← hd.accepts asciiOnly_isLineTerminator] at hc
    rw [Code.regexFrom?, h.here.peek_ascii rfl, ← h.reach_ascii rfl, hpeek, ← ih h.tail.tail,
      ← h.tail.pass (regexFrom?_wide inClass), h.reach_ascii rfl]
    simp only [BEq.rfl, if_true, hc, if_false, Bool.false_eq_true]
  | case5 inClass read c text _ _ hc =>
    obtain ⟨rfl, rfl⟩ : c = '/' ∧ inClass = false := by simpa using hc
    rw [Code.regexFrom?, h.here.peek_ascii rfl, ← h.reach_ascii rfl,
      run?_bytes (fun d c hd => hd.accepts asciiOnly_isRegexFlag) h.tail.here]
    simp [Scan.halt, h.tail.reach_takeWhile]
  | case6 inClass read c text _ _ hc ht =>
    have hascii := asciiOnly_isLineTerminator c ht
    rw [Code.regexFrom?, h.here.peek_ascii hascii, ← h.reach_ascii hascii]
    rcases eq_of_isLineTerminator ht with rfl | rfl <;> exact h.stands.fail? ..
  | case7 inClass read c text hlast hescape hc ht ih =>
    obtain ⟨d, hpeek, hd⟩ := h.here.peek_cons
    rw [Code.regexFrom?, hpeek, ← ih h.tail, ← h.pass (regexFrom?_wide _)]
    simp only [hd.beq (e := '\\') rfl, hd.beq (e := '/') rfl, hd.beq (e := '[') rfl,
      hd.beq (e := ']') rfl, hd.accepts asciiOnly_isLineTerminator,
      beq_eq_false_of_cases hlast hescape, hc, ht, if_false, Bool.false_eq_true, inClassAfter]
    cases c == '[' <;> cases c == ']' <;> cases inClass <;> rfl

theorem regex?_bytes {c : Char} (h : Stands source start (c :: ahead)) (hc : isAscii c = true) :
    Code.regex? source.bytes start =
      some ((regex (c :: ahead)).halt source start (c :: ahead)) := by
  rw [Code.regex?, h.step?_one, regex, List.drop_one, List.tail_cons,
    ← regexFrom?_bytes false (Along.first h), reach_one hc]
  rfl

/-! ## Strings -/

/-- A byte that is not of ASCII is stepped over. -/
theorem quotedFrom?_wide {code : Code} {quote : Char} (hquote : isAscii quote = true) (i : Nat)
    (d : Char) (hpeek : code.peek i = some d) (hd : isAscii d = false) :
    code.quotedFrom? start quote i = code.quotedFrom? start quote (i + 1) := by
  rw [Code.quotedFrom?, hpeek]
  simp only [beq_of_isAscii hd '\\' rfl, beq_of_isAscii hd quote hquote,
    asciiOnly_isLineTerminator.eq_false hd, Bool.false_eq_true, if_false]

theorem quotedFrom?_bytes {quote : Char} (hquote : isAscii quote = true)
    (h : Along source start whole read ahead) :
    Code.quotedFrom? source.bytes start quote (reach start whole read) =
      some ((quotedFrom quote read ahead).halt source start whole) := by
  fun_induction quotedFrom quote read ahead with
  | case1 read =>
    rw [Code.quotedFrom?, h.here.peek_nil]
    exact h.stands.fail? ..
  | case2 read =>
    rw [Code.quotedFrom?, h.here.peek_ascii rfl, ← h.reach_ascii rfl, h.tail.here.peek_nil]
    exact h.stands.fail? ..
  | case3 read text ih =>
    rw [Code.quotedFrom?, h.here.peek_ascii rfl, ← h.reach_ascii rfl, h.tail.here.peek_ascii rfl,
      ← ih h.tail.tail.tail]
    have htwo : reach start whole (read + 2) = reach start whole read + 2 := by
      rw [h.tail.reach_ascii rfl, h.reach_ascii rfl]
    simp only [BEq.rfl, if_true, ← htwo]
    rw [optional_bytes rfl h.tail.tail.here, h.tail.tail.reach_ascii rfl]
    rfl
  | case4 read c text hfeed ih =>
    obtain ⟨d, hpeek, hd⟩ := h.tail.here.peek_cons
    rw [Code.quotedFrom?, h.here.peek_ascii rfl, ← h.reach_ascii rfl, hpeek, ← ih h.tail.tail]
    simp only [BEq.rfl, if_true, hd.beq (e := '\r') rfl]
    split
    · next hc =>
      -- A return that no line feed follows.
      obtain rfl : c = '\r' := by simpa using hc
      have htwo : reach start whole (read + 2) = reach start whole read + 2 := by
        rw [h.tail.reach_ascii rfl, h.reach_ascii rfl]
      have hnone : optional (· == '\n') text = 0 := by
        cases text with
        | nil => rfl
        | cons e text =>
          have he : e ≠ '\n' := fun he => hfeed text rfl (by rw [he])
          simp [optional, he]
      rw [← htwo, optional_bytes rfl h.tail.tail.here, hnone, Nat.add_zero]
    · rw [← h.tail.pass (quotedFrom?_wide hquote), h.reach_ascii rfl]
  | case5 read c text hlast _ hescape hc =>
    obtain rfl : c = quote := by simpa using hc
    rw [Code.quotedFrom?, h.here.peek_ascii hquote]
    simp [beq_eq_false_of_cases hlast hescape, Scan.halt, h.reach_ascii hquote]
  | case6 read c text hlast _ hescape hc ht =>
    have hascii := asciiOnly_isLineTerminator c ht
    rw [Code.quotedFrom?, h.here.peek_ascii hascii, ← h.reach_ascii hascii]
    simp only [beq_eq_false_of_cases hlast hescape, hc, ht, if_true, if_false, Bool.false_eq_true]
    exact h.stands.fail? ..
  | case7 read c text hlast _ hescape hc ht ih =>
    obtain ⟨d, hpeek, hd⟩ := h.here.peek_cons
    rw [Code.quotedFrom?, hpeek, ← ih h.tail, ← h.pass (quotedFrom?_wide hquote)]
    simp only [hd.beq (e := '\\') rfl, hd.beq hquote, hd.accepts asciiOnly_isLineTerminator,
      beq_eq_false_of_cases hlast hescape, hc, ht, if_false, Bool.false_eq_true]

theorem quoted?_bytes {quote : Char} (h : Stands source start (quote :: ahead))
    (hquote : isAscii quote = true) :
    Code.quoted? source.bytes start =
      some ((quoted (quote :: ahead)).halt source start (quote :: ahead)) := by
  rw [Code.quoted?, h.peek_ascii hquote, h.step?_one, quoted,
    ← quotedFrom?_bytes hquote (Along.first h), reach_one hquote]
  rfl

/-! ## Templates -/

theorem isPrefixOf_slash_eq_false {c d : Char} {text : Text}
    (h : ∀ rest, c = '/' → text = d :: rest → False) :
    ['/', d].isPrefixOf (c :: text) = false := by
  rw [Bool.eq_false_iff]
  intro hprefix
  obtain ⟨rest, hrest⟩ := List.isPrefixOf_iff_prefix.1 hprefix
  obtain ⟨hc, htext⟩ := List.cons.inj hrest
  exact h rest hc.symm htext.symm

theorem isPrefixOf_slash_wide {c : Char} (hc : isAscii c = false) (d : Char) (text : Text) :
    ['/', d].isPrefixOf (c :: text) = false := by
  apply isPrefixOf_slash_eq_false
  rintro _ rfl _
  cases hc

/-- The items of a substitution, told apart by their first characters. -/
theorem substitutionItem_cons (c : Char) (text : Text) :
    substitutionItem (c :: text) =
      if isQuote c then quoted (c :: text)
      else if ['/', '*'].isPrefixOf (c :: text) then blockComment (c :: text)
      else if ['/', '/'].isPrefixOf (c :: text) then lineComment (c :: text)
      else { length := 1 } := by
  unfold substitutionItem
  split
  · next heq =>
    obtain ⟨rfl, rfl⟩ := List.cons.inj heq
    rfl
  · next heq =>
    obtain ⟨rfl, rfl⟩ := List.cons.inj heq
    rfl
  · next hblock hline heq =>
    obtain ⟨rfl, rfl⟩ := List.cons.inj heq
    rw [isPrefixOf_slash_eq_false hblock, isPrefixOf_slash_eq_false hline]
    rfl
  · next heq => cases heq

theorem length_substitutionItem_pos (c : Char) (text : Text) :
    0 < (substitutionItem (c :: text)).length := by
  rw [substitutionItem_cons]
  split
  · exact le_length_quotedFrom c 1 text
  split
  · exact length_blockComment_pos _
  split
  · next hline =>
    obtain ⟨rest, hrest⟩ := List.isPrefixOf_iff_prefix.1 hline
    rw [← hrest]
    exact Nat.succ_pos _
  · exact Nat.one_pos

/-- What a substitution steps over is the same among the bytes, if it starts in ASCII. -/
theorem substitutionItem?_bytes {c : Char} (h : Stands source start (c :: ahead))
    (hc : isAscii c = true) :
    Code.substitutionItem? source.bytes start c =
      some ((substitutionItem (c :: ahead)).halt source start (c :: ahead)) := by
  rw [Code.substitutionItem?, h.rest?, substitutionItem_cons]
  by_cases hquote : isQuote c = true
  · rw [if_pos hquote, if_pos hquote]
    exact quoted?_bytes h hc
  simp only [hquote, Bool.false_eq_true, if_false, Option.bind_eq_bind, Option.bind_some]
  rw [Text.isPrefixOf_byteChars (by decide), Text.isPrefixOf_byteChars (by decide)]
  split
  · next hblock =>
    obtain ⟨rest, hrest⟩ := List.isPrefixOf_iff_prefix.1 hblock
    rw [← hrest] at h ⊢
    exact blockComment?_bytes h
  split
  · exact lineComment?_bytes h
  · rw [h.step?_one]
    simp [Scan.halt, reach_one hc]

/-- A byte that is not of ASCII is stepped over by itself. -/
theorem substitutionItem?_wide {code : Code} (i : Nat) (d : Char)
    (hpeek : code.peek i = some d) (hd : isAscii d = false) :
    code.substitutionItem? i d = some { next := i + 1 } := by
  obtain ⟨rest, hrest⟩ := Code.rest?_of_peek hpeek
  rw [Code.substitutionItem?, asciiOnly_isQuote.eq_false hd, hrest, Code.step?_of_peek hpeek]
  simp only [Option.bind_eq_bind, Option.bind_some, isPrefixOf_slash_wide hd,
    Bool.false_eq_true, if_false]
  rfl

theorem substitutionItem_wide {c : Char} (text : Text) (hc : isAscii c = false) :
    substitutionItem (c :: text) = { length := 1 } := by
  rw [substitutionItem_cons, asciiOnly_isQuote.eq_false hc, isPrefixOf_slash_wide hc,
    isPrefixOf_slash_wide hc]
  rfl

/-- What a substitution steps over at once, braces apart. -/
def item? (code : Code) (next : Nat) (c : Char) : Option Code.Halt :=
  if c == '`' then do
    let _ ← code.step? next 1
    code.templateFrom? next 0 (next + 1) false
  else code.substitutionItem? next c

/-- What stands in a substitution and is no brace is read by itself. -/
theorem templateFrom?_otherwise {code : Code} {depth next : Nat} {crossed : Bool} {c : Char}
    (hpeek : code.peek next = some c) (hopen : c ≠ '{') (hclose : c ≠ '}') :
    code.templateFrom? start (depth + 1) next crossed =
      (item? code next c).bind fun item =>
        if item.error.isSome then some { item with crossed := crossed || item.crossed }
        else if next < item.next then
          code.templateFrom? start (depth + 1) item.next (crossed || item.crossed)
        else none := by
  rw [Code.templateFrom?, hpeek]
  simp only [beq_false_of_ne hopen, beq_false_of_ne hclose, Nat.add_one_ne_zero,
    Bool.false_eq_true, if_false]
  rfl

/-- The scan goes on behind it. -/
theorem templateFrom?_item {code : Code} {depth next : Nat} {crossed : Bool} {c : Char}
    {item : Code.Halt} (hpeek : code.peek next = some c) (hopen : c ≠ '{') (hclose : c ≠ '}')
    (hitem : item? code next c = some item) (hlt : next < item.next) :
    code.templateFrom? start (depth + 1) next crossed =
      if item.error.isSome then some { item with crossed := crossed || item.crossed }
      else code.templateFrom? start (depth + 1) item.next (crossed || item.crossed) := by
  rw [templateFrom?_otherwise hpeek hopen hclose, hitem, Option.bind_some, if_pos hlt]

theorem templateFrom?_wide {code : Code} (depth : Nat) (crossed : Bool) (i : Nat) (d : Char)
    (hpeek : code.peek i = some d) (hd : isAscii d = false) :
    code.templateFrom? start depth i crossed = code.templateFrom? start depth (i + 1) crossed := by
  cases depth with
  | zero =>
    rw [Code.templateFrom?, hpeek]
    simp only [beq_of_isAscii hd '\\' rfl, beq_of_isAscii hd '`' rfl, beq_of_isAscii hd '$' rfl,
      Bool.false_and, Bool.false_eq_true, if_false, if_true]
  | succ depth =>
    have hitem : item? code i d = some { next := i + 1 } := by
      rw [item?, beq_of_isAscii hd '`' rfl]
      exact substitutionItem?_wide i d hpeek hd
    rw [templateFrom?_item hpeek (ne_of_isAscii hd '{' rfl) (ne_of_isAscii hd '}' rfl) hitem
      (Nat.lt_succ_self i)]
    simp

/-- A template or another item of a substitution, given that a template is read rightly. -/
theorem item?_bytes {c : Char} (h : Stands source start (c :: ahead)) (hc : isAscii c = true)
    (htemplate : Code.templateFrom? source.bytes start 0 (reach start (c :: ahead) 1) false =
      some ((templateFrom 0 1 false ahead).halt source start (c :: ahead))) :
    item? source.bytes start c =
      some ((if c == '`' then templateFrom 0 1 false ahead
        else substitutionItem (c :: ahead)).halt source start (c :: ahead)) := by
  rw [reach_one hc] at htemplate
  unfold item?
  split
  · rw [h.step?_one]
    exact htemplate
  · exact substitutionItem?_bytes h hc

theorem length_item_pos (c : Char) (text : Text) :
    0 < (if c == '`' then templateFrom 0 1 false text
      else substitutionItem (c :: text)).length := by
  split
  · exact le_length_templateFrom 0 1 false text
  · exact length_substitutionItem_pos c text

/-- An item of a substitution is read alike among the bytes and among the characters. -/
theorem templateFrom?_step {depth : Nat} {crossed : Bool} {c : Char} {item : Scan}
    (h : Along source start whole read (c :: ahead)) (hopen : c ≠ '{') (hclose : c ≠ '}')
    (hitem : (if c == '`' then templateFrom 0 1 false ahead else substitutionItem (c :: ahead)) =
      item)
    (htemplate : ∀ start whole, Along source start whole 1 ahead →
      Code.templateFrom? source.bytes start 0 (reach start whole 1) false =
        some ((templateFrom 0 1 false ahead).halt source start whole)) :
    Code.templateFrom? source.bytes start (depth + 1) (reach start whole read) crossed =
      if item.fault.isSome then
        some ({ item.within read with crossesLine := crossed || item.crossesLine }.halt source
          start whole)
      else
        Code.templateFrom? source.bytes start (depth + 1) (reach start whole (read + item.length))
          (crossed || item.crossesLine) := by
  cases hc : isAscii c with
  | true =>
    have hread := item?_bytes h.here hc (htemplate _ _ (Along.first h.here))
    have hpos := length_item_pos c ahead
    rw [hitem] at hread hpos
    have hfault : (item.halt source (reach start whole read) (c :: ahead)).error.isSome =
        item.fault.isSome := Option.isSome_map
    have hlt : reach start whole read <
        (item.halt source (reach start whole read) (c :: ahead)).next := lt_reach hpos
    rw [templateFrom?_item (h.here.peek_ascii hc) hopen hclose hread hlt, hfault,
      ← h.halt_within]
    rfl
  | false =>
    -- The first byte is stepped over like those that follow it.
    obtain ⟨d, hpeek, hd⟩ := h.here.peek_cons
    have hwide : isAscii d = false := by
      rcases hd with rfl | ⟨hd, _⟩
      · exact hc
      · exact hd
    rw [(asciiOnly_eq rfl).eq_false hc, substitutionItem_wide ahead hc] at hitem
    subst hitem
    rw [templateFrom?_wide _ crossed _ d hpeek hwide, h.pass (templateFrom?_wide _ crossed)]
    simp

theorem templateFrom?_bytes (depth read : Nat) (crossed : Bool) (ahead : Text) :
    ∀ start whole, Along source start whole read ahead →
      Code.templateFrom? source.bytes start depth (reach start whole read) crossed =
        some ((templateFrom depth read crossed ahead).halt source start whole) := by
  -- A template in a substitution has a start and a text of its own, so these are not fixed.
  fun_induction templateFrom depth read crossed ahead with
  | case1 depth read crossed =>
    intro start whole h
    rw [Code.templateFrom?, h.here.peek_nil]
    exact h.stands.fail? ..
  | case2 read crossed =>
    intro start whole h
    rw [Code.templateFrom?, h.here.peek_ascii rfl, ← h.reach_ascii rfl, h.tail.here.peek_nil]
    exact h.stands.fail? ..
  | case3 read crossed c rest ih =>
    intro start whole h
    obtain ⟨d, hpeek, _⟩ := h.tail.here.peek_cons
    rw [Code.templateFrom?, h.here.peek_ascii rfl, ← h.reach_ascii rfl, hpeek,
      ← ih start whole h.tail.tail, ← h.tail.pass (templateFrom?_wide 0 crossed),
      h.reach_ascii rfl]
    rfl
  | case4 read crossed rest ih =>
    intro start whole h
    rw [Code.templateFrom?, h.here.peek_ascii rfl, ← h.reach_ascii rfl,
      h.tail.here.peek_ascii rfl, h.tail.here.step?_one, ← ih start whole h.tail.tail,
      h.tail.reach_ascii rfl, h.reach_ascii rfl]
    rfl
  | case5 read crossed c rest _ _ _ hc =>
    intro start whole h
    obtain rfl : c = '`' := by simpa using hc
    rw [Code.templateFrom?, h.here.peek_ascii rfl, ← h.reach_ascii rfl]
    rfl
  | case6 read crossed c rest hlast hescape hopens hc ih =>
    intro start whole h
    obtain ⟨d, hpeek, hd⟩ := h.here.peek_cons
    rw [Code.templateFrom?, hpeek, ← ih start whole h.tail,
      ← h.pass (templateFrom?_wide 0 crossed)]
    have hdollar : (d == '$' &&
        Code.peek source.bytes (reach start whole read + 1) == some '{') = false := by
      rw [hd.beq rfl]
      by_cases hdollar : c = '$'
      · subst hdollar
        rw [← h.reach_ascii rfl, h.tail.here.peek_beq rfl]
        cases rest with
        | nil => rfl
        | cons e rest =>
          have he : e ≠ '{' := fun he => hopens rest rfl (by rw [he])
          simp [he]
      · simp [hdollar]
    simp only [hd.beq (e := '\\') rfl, hd.beq (e := '`') rfl,
      beq_eq_false_of_cases hlast hescape, hc, hdollar, Bool.false_eq_true, if_false, if_true]
  | case7 read crossed depth rest ih =>
    intro start whole h
    rw [Code.templateFrom?, h.here.peek_ascii rfl, h.here.step?_one, ← h.reach_ascii rfl,
      ← ih start whole h.tail]
    rfl
  | case8 read crossed depth rest ih =>
    intro start whole h
    rw [Code.templateFrom?, h.here.peek_ascii rfl, h.here.step?_one, ← h.reach_ascii rfl,
      ← ih start whole h.tail]
    rfl
  | case9 read crossed depth c rest hopen hclose item hfault outer ih =>
    intro start whole h
    have hitem : (if c == '`' then templateFrom 0 1 false rest else substitutionItem (c :: rest)) =
        item := by simp [item]
    rw [templateFrom?_step h hopen hclose hitem ih, if_pos hfault]
  | case10 read crossed depth c rest hopen hclose item hfault ih ihrest =>
    intro start whole h
    have hitem : (if c == '`' then templateFrom 0 1 false rest else substitutionItem (c :: rest)) =
        item := by simp [item]
    have hpos : 0 < item.length := hitem ▸ length_item_pos c rest
    have hlater : Along source start whole (read + item.length) (rest.drop (item.length - 1)) := by
      obtain ⟨n, hn⟩ := Nat.exists_eq_succ_of_ne_zero (Nat.ne_of_gt hpos)
      rw [hn]
      exact h.drop (n + 1)
    rw [templateFrom?_step h hopen hclose hitem ih, if_neg hfault, ihrest start whole hlater]

theorem template?_bytes {c : Char} (h : Stands source start (c :: ahead)) (hc : isAscii c = true) :
    Code.template? source.bytes start =
      some ((template (c :: ahead)).halt source start (c :: ahead)) := by
  rw [Code.template?, h.step?_one, template, List.drop_one, List.tail_cons,
    ← templateFrom?_bytes 0 1 false ahead _ _ (Along.first h), reach_one hc]
  rfl

/-! ## Any lexeme -/

/-- The numbers, told apart by their first two characters. -/
theorem number?_cons (c : Char) (text : Text) :
    number? (c :: text) =
      if c == '0' && text.head?.any (fun d => d == 'x' || d == 'X') then
        some (radix isHexDigit (c :: text))
      else if c == '0' && text.head?.any (fun d => d == 'b' || d == 'B') then
        some (radix isBinaryDigit (c :: text))
      else if c == '0' && text.head?.any (fun d => d == 'o' || d == 'O') then
        some (radix isOctalDigit (c :: text))
      else if isDigit c then some (decimal (c :: text))
      else if c == '.' && text.head?.any isDigit then some (decimal (c :: text))
      else none := by
  unfold number?
  split
  · next letter rest heq =>
    obtain ⟨rfl, rfl⟩ := List.cons.inj heq
    simp only [radixDigits?, BEq.rfl, Bool.true_and, List.head?_cons, Option.any_some]
    cases letter == 'x' || letter == 'X' <;> cases letter == 'b' || letter == 'B' <;>
      cases letter == 'o' || letter == 'O' <;> rfl
  · next d rest heq =>
    obtain ⟨rfl, rfl⟩ := List.cons.inj heq
    rfl
  · next hradix hpoint heq =>
    obtain ⟨rfl, rfl⟩ := List.cons.inj heq
    have hnone : ∀ {e : Char} {accepts : Char → Bool},
        (∀ d rest, c = e → text = d :: rest → False) →
        (c == e && text.head?.any accepts) = false := by
      intro e accepts hother
      cases text with
      | nil => simp
      | cons d rest => simp [show c ≠ e from fun hc => hother d rest hc rfl]
    simp only [hnone hradix, hnone hpoint, Bool.false_eq_true, if_false]
  · next heq => cases heq

theorem significant?_bytes {c : Char} (slash : Slash) (h : Stands source start (c :: ahead)) :
    Code.significant? source.bytes slash start = some ((significant slash (c :: ahead)).1,
      (significant slash (c :: ahead)).2.halt source start (c :: ahead)) := by
  obtain ⟨d, hpeek, hd⟩ := h.peek_cons
  have hnext : ∀ {e : Char} {accepts : Char → Bool}, isAscii e = true → AsciiOnly accepts →
      (d == e && (Code.peek source.bytes (start + 1)).any accepts) =
        (c == e && ahead.head?.any accepts) :=
    fun he ha => h.peek_both hd he ha
  rw [Code.significant?, hpeek]
  simp only [Option.bind_eq_bind, Option.bind_some, significant, number?_cons,
    hd.accepts asciiOnly_isQuote, hd.accepts asciiOnly_isDigit, hd.accepts asciiOnly_isOperator,
    hd.beq (e := '`') rfl, hd.beq (e := '/') rfl, hnext (e := '.') rfl asciiOnly_isDigit,
    hnext (e := '0') rfl ((asciiOnly_eq (c := 'x') rfl).or (asciiOnly_eq (c := 'X') rfl)),
    hnext (e := '0') rfl ((asciiOnly_eq (c := 'b') rfl).or (asciiOnly_eq (c := 'B') rfl)),
    hnext (e := '0') rfl ((asciiOnly_eq (c := 'o') rfl).or (asciiOnly_eq (c := 'O') rfl))]
  split
  · next hquote =>
    rw [quoted?_bytes h (asciiOnly_isQuote c hquote)]
    rfl
  split
  · next hquote =>
    rw [template?_bytes h (asciiOnly_eq rfl c hquote)]
    rfl
  split
  · next hslash =>
    rw [regex?_bytes h (asciiOnly_eq rfl c (Bool.and_eq_true_iff.1 hslash).1)]
    rfl
  split
  · next hmark =>
    rw [radix?_bytes asciiOnly_isHexDigit rfl ((asciiOnly_eq rfl).or (asciiOnly_eq rfl)) h hmark]
    rfl
  split
  · next hmark =>
    rw [radix?_bytes asciiOnly_isBinaryDigit rfl ((asciiOnly_eq rfl).or (asciiOnly_eq rfl)) h hmark]
    rfl
  split
  · next hmark =>
    rw [radix?_bytes asciiOnly_isOctalDigit rfl ((asciiOnly_eq rfl).or (asciiOnly_eq rfl)) h hmark]
    rfl
  split
  · rw [decimal?_bytes h]
    rfl
  split
  · rw [decimal?_bytes h]
    rfl
  split
  · exact punctuator?_bytes h
  · next hoperator =>
    have hnone : longestPunctuator? (c :: ahead) = none := by
      rw [Option.eq_none_iff_forall_ne_some]
      intro mark hmark
      exact hoperator (isOperator_of_longestPunctuator? hmark)
    rw [word?_bytes h, punctuatorOrWord, hnone]

/-- Every scan of bytes halts where the scan of characters ends. -/
theorem scan?_bytes {c : Char} (slash : Slash) (atLineStart : Bool)
    (h : Stands source start (c :: ahead)) :
    Code.scan? source.bytes slash atLineStart start =
      some ((scan slash atLineStart (c :: ahead)).1,
        (scan slash atLineStart (c :: ahead)).2.halt source start (c :: ahead)) := by
  obtain ⟨d, hpeek, hd⟩ := h.peek_cons
  have hblock : ['/', '*'].isPrefixOf (Text.byteChars (c :: ahead)) =
      startsBlockComment (c :: ahead) :=
    Text.isPrefixOf_byteChars (by decide) _
  have hline : (['/', '/'].isPrefixOf (Text.byteChars (c :: ahead)) ||
      ['<', '!', '-', '-'].isPrefixOf (Text.byteChars (c :: ahead)) ||
      (atLineStart && ['-', '-', '>'].isPrefixOf (Text.byteChars (c :: ahead)))) =
      startsLineComment atLineStart (c :: ahead) := by
    rw [Text.isPrefixOf_byteChars (by decide), Text.isPrefixOf_byteChars (by decide),
      Text.isPrefixOf_byteChars (by decide)]
    rfl
  rw [Code.scan?, hpeek]
  simp only [Option.bind_eq_bind, Option.bind_some, hd.accepts asciiOnly_isBlank, h.rest?, scan,
    hblock, hline]
  split
  · rw [blanks?_bytes h]
    rfl
  split
  · next hstarts =>
    obtain ⟨rest, hrest⟩ := List.isPrefixOf_iff_prefix.1 hstarts
    rw [← hrest] at h ⊢
    rw [blockComment?_bytes h]
    rfl
  split
  · rw [lineComment?_bytes h]
    rfl
  · exact significant?_bytes slash h

end Lexeme

end ScriptMinifier
