-- The bytes of a script. A character of ASCII is one byte, and every other character is two to
-- four bytes that are no characters of ASCII. So a test for characters of ASCII gives the same
-- answer on a character and on each of its bytes, and a byte in the middle of a character is never
-- taken for one of them.
import ScriptMinifier.Proofs.Tokens

namespace ScriptMinifier

open Character

/-! ## Characters of ASCII -/

namespace Character

def isAscii (c : Char) : Bool := c.toNat < 128

/-- A test that only characters of ASCII pass. -/
def AsciiOnly (accepts : Char → Bool) : Prop := ∀ c, accepts c = true → isAscii c = true

theorem AsciiOnly.eq_false {accepts : Char → Bool} (ha : AsciiOnly accepts) {c : Char}
    (hc : isAscii c = false) : accepts c = false := by
  cases hp : accepts c
  · rfl
  · rw [ha c hp] at hc
    cases hc

theorem asciiOnly_of_contains {chars : List Char} (h : chars.all isAscii = true) :
    AsciiOnly (chars.contains ·) := by
  intro c hc
  exact List.all_eq_true.1 h c (by simpa using hc)

theorem asciiOnly_eq {c : Char} (h : isAscii c = true) : AsciiOnly (· == c) := by
  intro d hd
  rwa [beq_iff_eq.1 hd]

theorem AsciiOnly.or {p q : Char → Bool} (hp : AsciiOnly p) (hq : AsciiOnly q) :
    AsciiOnly fun c => p c || q c := by
  intro c hc
  rcases Bool.or_eq_true_iff.1 hc with h | h
  · exact hp c h
  · exact hq c h

theorem asciiOnly_range {first last : Char} (h : isAscii last = true) :
    AsciiOnly fun c => first ≤ c && c ≤ last := by
  intro c hc
  have hle : c.toNat ≤ last.toNat := by
    simp only [Bool.and_eq_true, decide_eq_true_eq] at hc
    exact hc.2
  simp only [isAscii, decide_eq_true_eq] at h ⊢
  omega

theorem asciiOnly_isLineTerminator : AsciiOnly isLineTerminator :=
  (asciiOnly_eq (by decide)).or (asciiOnly_eq (by decide))

theorem asciiOnly_isBlank : AsciiOnly isBlank := asciiOnly_of_contains (by decide)

theorem asciiOnly_isOperator : AsciiOnly isOperator := asciiOnly_of_contains (by decide +kernel)

theorem asciiOnly_isWordBreak : AsciiOnly isWordBreak := asciiOnly_isBlank.or asciiOnly_isOperator

theorem asciiOnly_isDigit : AsciiOnly isDigit := asciiOnly_range (by decide)

theorem asciiOnly_isBinaryDigit : AsciiOnly isBinaryDigit :=
  (asciiOnly_eq (by decide)).or (asciiOnly_eq (by decide))

theorem asciiOnly_isOctalDigit : AsciiOnly isOctalDigit := asciiOnly_range (by decide)

theorem asciiOnly_isHexDigit : AsciiOnly isHexDigit :=
  (asciiOnly_isDigit.or (asciiOnly_range (by decide))).or (asciiOnly_range (by decide))

theorem asciiOnly_isRegexFlag : AsciiOnly isRegexFlag :=
  (asciiOnly_range (by decide)).or (asciiOnly_range (by decide))

theorem asciiOnly_isQuote : AsciiOnly Lexeme.isQuote :=
  (asciiOnly_eq (by decide)).or (asciiOnly_eq (by decide))

theorem asciiOnly_isExponentMark : AsciiOnly Lexeme.isExponentMark :=
  (asciiOnly_eq (by decide)).or (asciiOnly_eq (by decide))

theorem asciiOnly_isSign : AsciiOnly Lexeme.isSign :=
  (asciiOnly_eq (by decide)).or (asciiOnly_eq (by decide))

theorem ne_of_isAscii {d : Char} (hd : isAscii d = false) (e : Char) (he : isAscii e = true) :
    d ≠ e := by
  rintro rfl
  rw [he] at hd
  cases hd

theorem beq_of_isAscii {d : Char} (hd : isAscii d = false) (e : Char) (he : isAscii e = true) :
    (d == e) = false :=
  beq_false_of_ne (ne_of_isAscii hd e he)

/-! ## Characters that look alike -/

/-- No test for characters of ASCII tells the two apart. -/
def Alike (d c : Char) : Prop := d = c ∨ isAscii d = false ∧ isAscii c = false

theorem Alike.accepts {d c : Char} {accepts : Char → Bool} (h : Alike d c)
    (ha : AsciiOnly accepts) : accepts d = accepts c := by
  rcases h with rfl | ⟨hd, hc⟩
  · rfl
  · rw [ha.eq_false hd, ha.eq_false hc]

theorem Alike.rejects {d c : Char} {accepts : Char → Bool} (h : Alike d c)
    (ha : AsciiOnly accepts) : (!accepts d) = !accepts c := by
  rw [h.accepts ha]

theorem Alike.beq {d c e : Char} (h : Alike d c) (he : isAscii e = true) : (d == e) = (c == e) :=
  h.accepts (asciiOnly_eq he)

theorem Alike.eq_of_isAscii {d c : Char} (h : Alike d c) (hc : isAscii c = true) : d = c := by
  rcases h with rfl | ⟨_, hc'⟩
  · rfl
  · rw [hc] at hc'
    cases hc'

end Character

/-! ## Bytes of a character -/

/-- A byte, read as the character with its number. -/
abbrev charOfByte (b : UInt8) : Char := Char.ofUInt8 b

theorem toNat_charOfByte (b : UInt8) : (charOfByte b).toNat = b.toNat := UInt8.toNat_toUInt32 b

theorem utf8EncodeChar_of_isAscii {c : Char} (h : isAscii c = true) :
    ∃ b, String.utf8EncodeChar c = [b] ∧ charOfByte b = c := by
  have hlt : c.toNat < 128 := by simpa [isAscii] using h
  refine ⟨UInt8.ofNat c.toNat, ?_, ?_⟩
  · unfold String.utf8EncodeChar
    rw [Char.toNat_val]
    exact if_pos (by omega)
  · apply Char.toNat_inj.1
    rw [toNat_charOfByte, UInt8.toNat_ofNat']
    omega

theorem utf8Size_of_isAscii {c : Char} (h : isAscii c = true) : c.utf8Size = 1 := by
  obtain ⟨b, hb, _⟩ := utf8EncodeChar_of_isAscii h
  have := congrArg List.length hb
  simpa using this

/-- No byte of a character outside ASCII is a character of ASCII. -/
theorem isAscii_of_mem_utf8EncodeChar {c : Char} (h : isAscii c = false) {b : UInt8}
    (hb : b ∈ String.utf8EncodeChar c) : isAscii (charOfByte b) = false := by
  have hge : ¬ c.toNat ≤ 127 := by
    have : 128 ≤ c.toNat := by simpa [isAscii] using h
    omega
  have hbyte : 128 ≤ b.toNat := by
    unfold String.utf8EncodeChar at hb
    simp only [Char.toNat_val, hge, if_false] at hb
    split at hb
    · simp only [List.mem_cons, List.not_mem_nil, or_false] at hb
      rcases hb with rfl | rfl <;> rw [UInt8.toNat_ofNat'] <;> omega
    · split at hb
      · simp only [List.mem_cons, List.not_mem_nil, or_false] at hb
        rcases hb with rfl | rfl | rfl <;> rw [UInt8.toNat_ofNat'] <;> omega
      · simp only [List.mem_cons, List.not_mem_nil, or_false] at hb
        rcases hb with rfl | rfl | rfl | rfl <;> rw [UInt8.toNat_ofNat'] <;> omega
  simpa [isAscii, toNat_charOfByte] using hbyte

/-- No test for characters of ASCII tells a character from one of its bytes. -/
theorem alike_of_mem_utf8EncodeChar {c : Char} {b : UInt8} (hb : b ∈ String.utf8EncodeChar c) :
    Alike (charOfByte b) c := by
  cases hc : isAscii c with
  | true =>
    obtain ⟨d, hd, rfl⟩ := utf8EncodeChar_of_isAscii hc
    rw [hd, List.mem_singleton] at hb
    exact Or.inl (by rw [hb])
  | false => exact Or.inr ⟨isAscii_of_mem_utf8EncodeChar hc hb, hc⟩

/-- Each character has one first byte. -/
theorem countP_utf8EncodeChar (c : Char) :
    (String.utf8EncodeChar c).countP (fun b => b.IsUTF8FirstByte) = 1 := by
  have hfirst : ∀ (i : Nat) (hi : i < (String.utf8EncodeChar c).length),
      (String.utf8EncodeChar c)[i].IsUTF8FirstByte ↔ i = 0 := by
    intro i hi
    exact UInt8.isUTF8FirstByte_getElem_utf8EncodeChar
  cases hc : String.utf8EncodeChar c with
  | nil => exact absurd hc String.utf8EncodeChar_ne_nil
  | cons b inner =>
    rw [hc] at hfirst
    have hb : b.IsUTF8FirstByte := (hfirst 0 (by simp)).2 rfl
    have hinner : ∀ e ∈ inner, ¬ (e.IsUTF8FirstByte) := by
      intro e he
      obtain ⟨i, hi, rfl⟩ := List.mem_iff_getElem.1 he
      have := hfirst (i + 1) (by simpa using hi)
      simpa using this
    rw [List.countP_cons_of_pos (by simpa using hb), List.countP_eq_zero.2 (by simpa using hinner)]

/-! ## Bytes of a text -/

namespace Text

/-- The bytes of a text in UTF-8. -/
def bytes (text : Text) : List UInt8 := text.flatMap String.utf8EncodeChar

@[simp]
theorem bytes_nil : bytes [] = [] := rfl

@[simp]
theorem bytes_cons (c : Char) (text : Text) :
    bytes (c :: text) = String.utf8EncodeChar c ++ bytes text := rfl

@[simp]
theorem bytes_append (left right : Text) : bytes (left ++ right) = bytes left ++ bytes right :=
  List.flatMap_append

@[simp]
theorem length_bytes (text : Text) : (bytes text).length = byteSize text := by
  induction text with
  | nil => rfl
  | cons c text ih => simp [ih]

theorem bytes_inj {text other : Text} : bytes text = bytes other ↔ text = other := by
  constructor
  · intro h
    have hencoded : text.utf8Encode = other.utf8Encode := congrArg List.toByteArray h
    have hstrings : String.ofList text = String.ofList other :=
      String.toByteArray_inj.1 (by simpa using hencoded)
    exact String.ofList_inj.1 hstrings
  · rintro rfl
    rfl

theorem countP_bytes (text : Text) :
    (bytes text).countP (fun b => b.IsUTF8FirstByte) = text.length := by
  induction text with
  | nil => rfl
  | cons c text ih =>
    rw [bytes_cons, List.countP_append, countP_utf8EncodeChar, ih, List.length_cons,
      Nat.add_comm]

/-- A text has a character that passes a test if and only if it has a byte that does. -/
theorem any_bytes {accepts : Char → Bool} (ha : AsciiOnly accepts) (text : Text) :
    ((bytes text).any fun b => accepts (charOfByte b)) = text.any accepts := by
  induction text with
  | nil => rfl
  | cons c text ih =>
    have hbytes : ((String.utf8EncodeChar c).any fun b => accepts (charOfByte b)) = accepts c := by
      have hsame : ∀ b ∈ String.utf8EncodeChar c, accepts (charOfByte b) = accepts c :=
        fun b hb => (alike_of_mem_utf8EncodeChar hb).accepts ha
      rw [Bool.eq_iff_iff, List.any_eq_true]
      constructor
      · rintro ⟨b, hb, hp⟩
        rwa [← hsame b hb]
      · intro hp
        obtain ⟨b, hb⟩ := List.exists_mem_of_ne_nil (String.utf8EncodeChar c)
          String.utf8EncodeChar_ne_nil
        exact ⟨b, hb, by rwa [hsame b hb]⟩
    rw [bytes_cons, List.any_append, hbytes, ih, List.any_cons]

theorem byteSize_of_isAscii {text : Text} (h : text.all isAscii = true) :
    byteSize text = text.length := by
  induction text with
  | nil => rfl
  | cons c text ih =>
    obtain ⟨hc, htext⟩ := Bool.and_eq_true_iff.1 h
    rw [byteSize_cons, ih htext, utf8Size_of_isAscii hc, List.length_cons, Nat.add_comm]

/-- The bytes of a text, each read as the character with its number. -/
def byteChars (text : Text) : Text := text.bytes.map charOfByte

@[simp]
theorem byteChars_nil : byteChars [] = [] := rfl

@[simp]
theorem length_byteChars (text : Text) : (byteChars text).length = byteSize text := by
  simp [byteChars]

theorem byteChars_cons_of_isAscii {c : Char} (h : isAscii c = true) (text : Text) :
    byteChars (c :: text) = c :: byteChars text := by
  obtain ⟨b, hb, rfl⟩ := utf8EncodeChar_of_isAscii h
  simp [byteChars, hb]

/-- The first byte of a character looks like it, and the others look like no character of ASCII. -/
theorem exists_byteChars_cons (c : Char) :
    ∃ (d : Char) (inner : Text), (∀ text, byteChars (c :: text) = d :: (inner ++ byteChars text)) ∧
      Alike d c ∧ inner.length + 1 = c.utf8Size ∧
      ∀ e ∈ inner, isAscii e = false ∧ isAscii c = false := by
  cases hc : isAscii c with
  | true =>
    exact ⟨c, [], byteChars_cons_of_isAscii hc, Or.inl rfl, (utf8Size_of_isAscii hc).symm, by simp⟩
  | false =>
    have hwide : ∀ b ∈ String.utf8EncodeChar c, isAscii (charOfByte b) = false :=
      fun b hb => isAscii_of_mem_utf8EncodeChar hc hb
    have hlength := String.length_utf8EncodeChar c
    cases hencoded : String.utf8EncodeChar c with
    | nil => exact absurd hencoded String.utf8EncodeChar_ne_nil
    | cons b inner =>
      rw [hencoded] at hwide hlength
      obtain ⟨hb, hinner⟩ := List.forall_mem_cons.1 hwide
      refine ⟨charOfByte b, inner.map charOfByte, ?_, Or.inr ⟨hb, hc⟩, ?_, ?_⟩
      · intro text
        simp [byteChars, hencoded]
      · simpa using hlength
      · intro e he
        obtain ⟨b, hmem, rfl⟩ := List.mem_map.1 he
        exact ⟨hinner b hmem, rfl⟩

/-! ## Searches in the bytes of a text -/

/-- A run of characters that pass a test is a run of bytes that do. -/
theorem takeWhile_byteChars {accepts : Char → Bool}
    (h : ∀ d c, Alike d c → accepts d = accepts c) (text : Text) :
    (byteChars text).takeWhile accepts = byteChars (text.takeWhile accepts) := by
  induction text with
  | nil => rfl
  | cons c text ih =>
    obtain ⟨d, inner, hchars, hd, _, hinner⟩ := exists_byteChars_cons c
    rw [hchars, List.takeWhile_cons, List.takeWhile_cons, h d c hd]
    cases hc : accepts c with
    | false => rfl
    | true =>
      have hall : ∀ e ∈ inner, accepts e = true := by
        intro e he
        rw [h e c (Or.inr (hinner e he)), hc]
      simp only [if_true]
      rw [hchars, List.takeWhile_append_of_pos hall, ih]

/-- The first characters of a text are a given text of ASCII if and only if its first bytes are. -/
theorem take_byteChars_eq_iff {mark : Text} (h : mark.all isAscii = true) (n : Nat)
    (text : Text) : (byteChars text).take n = mark ↔ text.take n = mark := by
  induction n generalizing text mark with
  | zero => simp
  | succ n ih =>
    cases text with
    | nil => simp
    | cons c text =>
      obtain ⟨d, inner, hchars, hd, _, hinner⟩ := exists_byteChars_cons c
      cases mark with
      | nil => simp [hchars]
      | cons e mark =>
        obtain ⟨he, hmark⟩ := Bool.and_eq_true_iff.1 h
        have hsame : d = e ↔ c = e := by
          have := hd.beq he
          rw [Bool.eq_iff_iff] at this
          simpa using this
        rw [hchars, List.take_succ_cons, List.take_succ_cons, List.cons.injEq, List.cons.injEq,
          hsame]
        refine and_congr_right fun hce => ?_
        -- The character is of ASCII, so it has no further bytes.
        have hnone : inner = [] := by
          apply List.eq_nil_iff_forall_not_mem.2
          intro x hx
          have := (hinner x hx).2
          rw [hce, he] at this
          cases this
        rw [hnone, List.nil_append]
        exact ih hmark text

theorem isPrefixOf_byteChars {mark : Text} (h : mark.all isAscii = true) (text : Text) :
    mark.isPrefixOf (byteChars text) = mark.isPrefixOf text := by
  rw [Bool.eq_iff_iff, List.isPrefixOf_iff_prefix, List.isPrefixOf_iff_prefix,
    List.prefix_iff_eq_take, List.prefix_iff_eq_take, eq_comm, take_byteChars_eq_iff h, eq_comm]

end Text

namespace Lexeme

open Text

theorem isAscii_of_mem_punctuators {mark : Text} (h : mark ∈ punctuators) :
    mark.all isAscii = true := by
  have hall : (punctuators.all fun mark => mark.all isAscii) = true := by decide +kernel
  exact List.all_eq_true.1 hall mark h

theorem longestPunctuator?_byteChars (text : Text) :
    longestPunctuator? (byteChars text) = longestPunctuator? text := by
  have hiff : ∀ n, ∀ mark ∈ punctuators, (byteChars text).take n = mark ↔ text.take n = mark :=
    fun n mark hmark => take_byteChars_eq_iff (isAscii_of_mem_punctuators hmark) n text
  have hcontains : ∀ n, punctuators.contains ((byteChars text).take n) =
      punctuators.contains (text.take n) := by
    intro n
    rw [Bool.eq_iff_iff, List.contains_iff_mem, List.contains_iff_mem]
    constructor
    · intro hmem
      rw [(hiff n _ hmem).1 rfl]
      exact hmem
    · intro hmem
      rw [(hiff n _ hmem).2 rfl]
      exact hmem
  unfold longestPunctuator?
  rw [List.find?_map, List.find?_map]
  have hsame : (fun mark => punctuators.contains mark) ∘ (byteChars text).take =
      (fun mark => punctuators.contains mark) ∘ text.take := funext hcontains
  rw [hsame]
  cases hfound : [4, 3, 2, 1].find? ((fun mark => punctuators.contains mark) ∘ text.take) with
  | none => rfl
  | some n =>
    have hmem : text.take n ∈ punctuators := by
      have := List.find?_some hfound
      simpa using this
    rw [Option.map_some, Option.map_some, (hiff n _ hmem).2 rfl]

theorem commentEnd?_append {inner : Text} (h : ∀ c ∈ inner, c ≠ '*') (read : Nat) (text : Text) :
    commentEnd? read (inner ++ text) = commentEnd? (read + inner.length) text := by
  induction inner generalizing read with
  | nil => rfl
  | cons c inner ih =>
    obtain ⟨hc, hinner⟩ := List.forall_mem_cons.1 h
    rw [List.cons_append, commentEnd?, ih hinner, List.length_cons, Nat.add_assoc, Nat.add_comm 1]
    intro rest heq
    exact absurd heq hc

/-- The end of a comment is found at the same place among the bytes. -/
theorem commentEnd?_byteChars (read : Nat) (text : Text) (start : Nat) :
    commentEnd? start (byteChars text) =
      (commentEnd? read text).map fun n => start + byteSize (text.take (n - read)) := by
  fun_induction commentEnd? read text generalizing start with
  | case1 => rfl
  | case2 read text =>
    rw [byteChars_cons_of_isAscii (by decide), byteChars_cons_of_isAscii (by decide), commentEnd?]
    simp [show Char.utf8Size '*' = 1 from rfl, show Char.utf8Size '/' = 1 from rfl]
  | case3 read c text hend ih =>
    obtain ⟨d, inner, hchars, hd, hsize, hinner⟩ := exists_byteChars_cons c
    have hpast : commentEnd? start (byteChars (c :: text)) =
        commentEnd? (start + c.utf8Size) (byteChars text) := by
      have hne : ∀ e ∈ inner, e ≠ '*' := by
        rintro e he rfl
        exact absurd (hinner _ he).1 (by decide)
      rw [hchars, commentEnd?, commentEnd?_append hne, ← hsize]
      · congr 1
        omega
      · -- A star and a slash among the bytes are a star and a slash among the characters.
        rintro rest rfl hrest
        have hstar : c = '*' := by simpa using hd.beq (e := '*') (by decide)
        subst hstar
        have hprefix : ['*', '/'].isPrefixOf (byteChars ('*' :: text)) = true := by
          rw [hchars, hrest]
          rfl
        rw [isPrefixOf_byteChars (by decide)] at hprefix
        obtain ⟨after, hafter⟩ := List.isPrefixOf_iff_prefix.1 hprefix
        exact hend after rfl (List.cons.inj hafter.symm).2
    rw [hpast, ih]
    apply Option.map_congr
    intro n hn
    have hlt := lt_commentEnd? hn
    rw [show n - read = (n - (read + 1)) + 1 by omega, List.take_succ_cons, byteSize_cons,
      Nat.add_assoc]

end Lexeme

end ScriptMinifier
