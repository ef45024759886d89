-- Literals that tell their own end. A string, a template or a block comment is read the same
-- whatever stands behind it, since the scan stops at its last character. A regular expression is
-- read up to its closing slash and then takes in every letter that follows, as its flags.
import ScriptMinifier.Proofs.Tokens

namespace ScriptMinifier.Lexeme

open Character

/-! ## Literals that end by themselves -/

/-- The scanner has read `body`, and would have done so whatever stood behind it. -/
structure Delimits (scanner : Text → Scan) (read : Nat) (body tail : Text) : Prop where
  filled : body ≠ []
  length : (scanner (body ++ tail)).length = read + body.length
  stable : ∀ behind, scanner (body ++ behind) = scanner (body ++ tail)

/-- A scanner that steps over some characters and goes on as another one has read both. -/
theorem Delimits.extend {scanner inner : Text → Scan} {read : Nat} {body tail : Text}
    (front : Text) (h : Delimits inner (read + front.length) body tail)
    (hstep : ∀ behind, scanner (front ++ body ++ behind) = inner (body ++ behind)) :
    Delimits scanner read (front ++ body) tail := by
  refine ⟨by simp [h.filled], ?_, ?_⟩
  · rw [hstep, h.length, List.length_append, Nat.add_assoc]
  · intro behind
    rw [hstep, hstep, h.stable]

/-- A character that starts no escape. -/
theorem ne_backslash {c : Char} {text : Text} (hend : c = '\\' → text = [] → False)
    (hescape : ∀ d rest, c = '\\' → text = d :: rest → False) : c ≠ '\\' := by
  intro hc
  cases text with
  | nil => exact hend hc rfl
  | cons d rest => exact hescape d rest hc rfl

/-! ## Strings -/

theorem quotedFrom_of_ne {quote c : Char} (hc : c ≠ '\\') (read : Nat) (text : Text) :
    quotedFrom quote read (c :: text) =
      if c == quote then { length := read + 1 }
      else if isLineTerminator c then .fail .openString (read + 1)
      else quotedFrom quote (read + 1) text := by
  rw [quotedFrom] <;> simp [hc]

theorem exists_delimits_quotedFrom {quote : Char} {read : Nat} {text : Text}
    (hf : (quotedFrom quote read text).fault = none) :
    ∃ body tail, text = body ++ tail ∧ Delimits (quotedFrom quote read) read body tail := by
  fun_induction quotedFrom quote read text with
  | case1 => cases hf
  | case2 => cases hf
  | case3 read text ih =>
    obtain ⟨body, tail, rfl, hbody⟩ := ih hf
    exact ⟨_, tail, rfl, hbody.extend ['\\', '\r', '\n'] fun _ => rfl⟩
  | case4 read c text hreturn ih =>
    obtain ⟨body, tail, rfl, hbody⟩ := ih hf
    refine ⟨_, tail, rfl, hbody.extend ['\\', c] fun behind => ?_⟩
    -- A carriage return is followed by a line feed only if it was so before.
    obtain ⟨d, body, rfl⟩ := List.exists_cons_of_ne_nil hbody.filled
    simp only [List.cons_append, List.nil_append]
    rw [quotedFrom]
    intro text hc hd
    obtain ⟨rfl, _⟩ := List.cons.inj hd
    exact hreturn (body ++ tail) hc rfl
  | case5 read c text hlast _ hescape hquote =>
    have hend : ∀ behind, quotedFrom quote read (c :: behind) = { length := read + 1 } := by
      intro behind
      rw [quotedFrom_of_ne (ne_backslash hlast hescape), if_pos hquote]
    exact ⟨[c], text, rfl, by simp, by simp [hend], by simp [hend]⟩
  | case6 => cases hf
  | case7 read c text hlast _ hescape hquote hline ih =>
    have hc := ne_backslash hlast hescape
    obtain ⟨body, tail, rfl, hbody⟩ := ih hf
    refine ⟨_, tail, rfl, hbody.extend [c] fun behind => ?_⟩
    simp only [List.cons_append, List.nil_append]
    rw [quotedFrom_of_ne hc, if_neg hquote, if_neg hline]

/-! ## Comments -/

theorem exists_body_of_commentEnd? {read n : Nat} {text : Text}
    (h : commentEnd? read text = some n) :
    ∃ body tail, text = body ++ tail ∧ body ≠ [] ∧ n = read + body.length ∧
      ∀ behind, commentEnd? read (body ++ behind) = some n := by
  fun_induction commentEnd? read text with
  | case1 => cases h
  | case2 read text =>
    cases h
    exact ⟨['*', '/'], text, rfl, by simp, rfl, fun _ => rfl⟩
  | case3 read c text hstar ih =>
    obtain ⟨body, tail, rfl, hfilled, hn, hstable⟩ := ih h
    obtain ⟨d, body, rfl⟩ := List.exists_cons_of_ne_nil hfilled
    refine ⟨c :: d :: body, tail, rfl, by simp, by simp at hn ⊢; omega, fun behind => ?_⟩
    rw [List.cons_append, commentEnd?]
    · exact hstable behind
    · intro text hc hd
      obtain ⟨rfl, _⟩ := List.cons.inj hd
      exact hstar (body ++ tail) hc rfl

theorem exists_delimits_blockComment {a b : Char} {text : Text}
    (hf : (blockComment (a :: b :: text)).fault = none) :
    ∃ body tail, text = body ++ tail ∧ Delimits blockComment 0 (a :: b :: body) tail := by
  cases hend : commentEnd? 2 text with
  | none => simp [blockComment, hend, Scan.fail] at hf
  | some n =>
    obtain ⟨body, tail, rfl, _, hn, hstable⟩ := exists_body_of_commentEnd? hend
    have hread : ∀ behind, blockComment (a :: b :: body ++ behind) =
        { length := n, crossesLine := (a :: b :: body).any isLineTerminator } := by
      intro behind
      have htake : (a :: b :: body ++ behind).take n = a :: b :: body := by
        apply List.take_left'
        simp only [List.length_cons]
        omega
      unfold blockComment
      rw [List.cons_append, List.cons_append] at htake ⊢
      rw [List.drop_succ_cons, List.drop_succ_cons, List.drop_zero, hstable]
      simp only [htake]
    refine ⟨body, tail, rfl, by simp, ?_, ?_⟩
    · rw [hread]
      simp only [List.length_cons]
      omega
    · intro behind
      rw [hread, hread]

/-- A run of characters that ends before `d` ends there whatever stands behind. -/
theorem takeWhile_stable {p : Char → Bool} {text rest : Text} {d : Char}
    (h : text.drop (text.takeWhile p).length = d :: rest) :
    text = text.takeWhile p ++ d :: rest ∧
      ∀ behind, (text.takeWhile p ++ d :: behind).takeWhile p = text.takeWhile p := by
  induction text with
  | nil => simp at h
  | cons c text ih =>
    cases hc : p c with
    | true =>
      simp only [List.takeWhile_cons_of_pos hc, List.length_cons, List.drop_succ_cons] at h ⊢
      obtain ⟨htext, hstable⟩ := ih h
      refine ⟨by rw [List.cons_append, ← htext], fun behind => ?_⟩
      rw [List.cons_append, List.takeWhile_cons_of_pos hc, hstable]
    | false =>
      have hnil : (c :: text).takeWhile p = [] := by simp [hc]
      rw [hnil] at h ⊢
      obtain ⟨rfl, rfl⟩ := List.cons.inj h
      exact ⟨rfl, fun behind => by simp [hc]⟩

/-! ## Templates -/

theorem substitutionItem_of_ne {c d : Char} (text : Text)
    (h : c = '/' → d ≠ '*' ∧ d ≠ '/') :
    substitutionItem (c :: d :: text) =
      if isQuote c then quoted (c :: d :: text) else { length := 1 } := by
  rw [substitutionItem]
  · intro rest hc hd
    exact (h hc).1 (List.cons.inj hd).1
  · intro rest hc hd
    exact (h hc).2 (List.cons.inj hd).1

/-- What a substitution steps over at once is told by its characters and by the next one. -/
theorem exists_body_of_substitutionItem {c d : Char} {text rest : Text}
    (hf : (substitutionItem (c :: text)).fault = none)
    (hrest : text.drop ((substitutionItem (c :: text)).length - 1) = d :: rest) :
    ∃ body, text = body ++ d :: rest ∧
      (substitutionItem (c :: text)).length = 1 + body.length ∧
      ∀ behind, substitutionItem (c :: (body ++ d :: behind)) = substitutionItem (c :: text) := by
  cases text with
  | nil => simp at hrest
  | cons e text =>
    by_cases hcomment : c = '/' ∧ (e = '*' ∨ e = '/')
    · obtain ⟨rfl, rfl | rfl⟩ := hcomment
      · -- A block comment has its end among its characters.
        obtain ⟨body, tail, rfl, hbody⟩ := exists_delimits_blockComment hf
        have hlength : (substitutionItem ('/' :: '*' :: (body ++ tail))).length =
            1 + ('*' :: body).length := by
          have := hbody.length
          simp only [List.cons_append, List.length_cons] at this
          simp only [substitutionItem, List.length_cons]
          omega
        rw [hlength, Nat.add_sub_cancel_left, ← List.cons_append, List.drop_left] at hrest
        subst hrest
        exact ⟨'*' :: body, rfl, hlength, fun behind => hbody.stable (d :: behind)⟩
      · -- A line comment goes up to a line terminator, which is the next character.
        have hitem : ∀ behind, substitutionItem ('/' :: '/' :: behind) =
            { length := 1 + ('/' :: behind.takeWhile fun c => !isLineTerminator c).length } := by
          intro behind
          rw [Nat.add_comm]
          rfl
        rw [hitem, Nat.add_sub_cancel_left, List.length_cons, List.drop_succ_cons] at hrest
        obtain ⟨htext, hstable⟩ := takeWhile_stable hrest
        refine ⟨'/' :: text.takeWhile fun c => !isLineTerminator c, ?_, ?_, fun behind => ?_⟩
        · rw [List.cons_append, ← htext]
        · rw [hitem]
        · rw [List.cons_append, hitem, hitem, hstable]
    · have hitem : ∀ behind, substitutionItem (c :: e :: behind) =
          if isQuote c then quotedFrom c 1 (e :: behind) else { length := 1 } := by
        intro behind
        apply substitutionItem_of_ne
        intro hc
        exact ⟨fun he => hcomment ⟨hc, Or.inl he⟩, fun he => hcomment ⟨hc, Or.inr he⟩⟩
      rw [hitem] at hf hrest ⊢
      cases hquote : isQuote c with
      | true =>
        simp only [hquote, if_true] at hf hrest hitem ⊢
        obtain ⟨body, tail, htext, hbody⟩ := exists_delimits_quotedFrom hf
        rw [htext, hbody.length, Nat.add_sub_cancel_left, List.drop_left] at hrest
        subst hrest
        refine ⟨body, htext, htext ▸ hbody.length, fun behind => ?_⟩
        obtain ⟨f, body, rfl⟩ := List.exists_cons_of_ne_nil hbody.filled
        obtain ⟨rfl, rfl⟩ := List.cons.inj htext
        rw [List.cons_append, hitem]
        exact hbody.stable (d :: behind)
      | false =>
        simp only [hquote, Bool.false_eq_true, if_false] at hrest hitem ⊢
        obtain ⟨rfl, rfl⟩ := List.cons.inj hrest
        exact ⟨[], rfl, rfl, hitem⟩

/-- The same holds of a template that stands in the substitution. -/
theorem exists_body_of_item {c d : Char} {text rest : Text} {item : Scan}
    (hitem :
      (if c == '`' then templateFrom 0 1 false text else substitutionItem (c :: text)) = item)
    (hf : item.fault = none) (hrest : text.drop (item.length - 1) = d :: rest)
    (htemplate : (templateFrom 0 1 false text).fault = none →
      ∃ body tail, text = body ++ tail ∧ Delimits (templateFrom 0 1 false) 1 body tail) :
    ∃ body, text = body ++ d :: rest ∧ item.length = 1 + body.length ∧
      ∀ behind, (if c == '`' then templateFrom 0 1 false (body ++ d :: behind)
        else substitutionItem (c :: (body ++ d :: behind))) = item := by
  cases hc : c == '`' with
  | true =>
    simp only [hc, if_true] at hitem ⊢
    rw [hitem] at htemplate
    obtain ⟨body, tail, rfl, hbody⟩ := htemplate hf
    have hlength := hbody.length
    rw [hitem] at hlength
    rw [hlength, Nat.add_sub_cancel_left, List.drop_left] at hrest
    subst hrest
    refine ⟨body, rfl, hlength, fun behind => ?_⟩
    rw [hbody.stable, hitem]
  | false =>
    simp only [hc, Bool.false_eq_true, if_false] at hitem ⊢
    subst hitem
    exact exists_body_of_substitutionItem hf hrest

theorem exists_delimits_templateFrom {depth read : Nat} {crossed : Bool} {text : Text}
    (hf : (templateFrom depth read crossed text).fault = none) :
    ∃ body tail, text = body ++ tail ∧
      Delimits (templateFrom depth read crossed) read body tail := by
  fun_induction templateFrom depth read crossed text with
  | case1 => cases hf
  | case2 => cases hf
  | case3 read crossed c rest ih =>
    obtain ⟨body, tail, rfl, hbody⟩ := ih hf
    refine ⟨_, tail, rfl, hbody.extend ['\\', c] fun behind => ?_⟩
    simp [templateFrom]
  | case4 read crossed rest ih =>
    obtain ⟨body, tail, rfl, hbody⟩ := ih hf
    refine ⟨_, tail, rfl, hbody.extend ['$', '{'] fun behind => ?_⟩
    simp [templateFrom]
  | case5 read crossed c rest _ _ _ hquote =>
    obtain rfl : c = '`' := by simpa using hquote
    refine ⟨['`'], rest, rfl, by simp, ?_, ?_⟩
    all_goals simp [templateFrom]
  | case6 read crossed c rest _ hescape hopens hquote ih =>
    obtain ⟨body, tail, rfl, hbody⟩ := ih hf
    refine ⟨_, tail, rfl, hbody.extend [c] fun behind => ?_⟩
    obtain ⟨d, body, rfl⟩ := List.exists_cons_of_ne_nil hbody.filled
    simp only [List.cons_append, List.nil_append]
    rw [templateFrom, if_neg hquote]
    · simp
    · intro e rest hc hd
      exact hescape d (body ++ tail) hc rfl
    · intro rest hc hd
      obtain ⟨rfl, _⟩ := List.cons.inj hd
      exact hopens (body ++ tail) hc rfl
  | case7 read crossed depth rest ih =>
    obtain ⟨body, tail, rfl, hbody⟩ := ih hf
    refine ⟨_, tail, rfl, hbody.extend ['{'] fun behind => ?_⟩
    simp [templateFrom]
  | case8 read crossed depth rest ih =>
    obtain ⟨body, tail, rfl, hbody⟩ := ih hf
    refine ⟨_, tail, rfl, hbody.extend ['}'] fun behind => ?_⟩
    simp [templateFrom]
  | case9 read crossed depth c rest _ _ item hitem outer _ =>
    obtain ⟨fault, hfault⟩ := Option.isSome_iff_exists.1 hitem
    simp [outer, Scan.within, hfault] at hf
  | case10 read crossed depth c rest hopen hclose item hitem ih ihrest =>
    obtain ⟨later, tail, hlater, hbody⟩ := ihrest hf
    obtain ⟨d, later, rfl⟩ := List.exists_cons_of_ne_nil hbody.filled
    have hfault : item.fault = none := by simpa using hitem
    have hdef : (if c == '`' then templateFrom 0 1 false rest else substitutionItem (c :: rest)) =
        item := by simp [item]
    obtain ⟨front, hrest, hlength, hstable⟩ := exists_body_of_item hdef hfault hlater ih
    subst hrest
    have hread : read + item.length = read + (c :: front).length := by
      rw [hlength, List.length_cons, Nat.add_comm 1]
    rw [hread] at hbody
    refine ⟨c :: front ++ d :: later, tail, by simp, hbody.extend (c :: front) fun behind => ?_⟩
    have hdrop : (front ++ d :: (later ++ behind)).drop (item.length - 1) =
        d :: (later ++ behind) := by
      rw [hlength, Nat.add_sub_cancel_left, List.drop_left]
    simp only [List.cons_append, List.append_assoc]
    rw [templateFrom]
    · simp only [hstable, hitem, hdrop, hread, Bool.false_eq_true, if_false]
    · exact hopen
    · exact hclose

/-! ## Regular expressions -/

theorem regexFrom_of_ne {c : Char} (hc : c ≠ '\\') (inClass : Bool) (read : Nat) (text : Text) :
    regexFrom inClass read (c :: text) =
      if c == '/' && !inClass then { length := read + 1 + (text.takeWhile isRegexFlag).length }
      else if isLineTerminator c then .fail .openRegex (read + 1)
      else regexFrom (inClassAfter inClass c) (read + 1) text := by
  rw [regexFrom] <;> simp [hc]

/-- A regular expression takes in all the letters that stand behind it as flags. -/
theorem exists_body_of_regexFrom {inClass : Bool} {read : Nat} {text : Text}
    (hf : (regexFrom inClass read text).fault = none) :
    ∃ body tail, text = body ++ tail ∧
      regexFrom inClass read text = { length := read + body.length } ∧
      ∀ behind, regexFrom inClass read (body ++ behind) =
        { length := read + body.length + (behind.takeWhile isRegexFlag).length } := by
  fun_induction regexFrom inClass read text with
  | case1 => cases hf
  | case2 => cases hf
  | case3 => cases hf
  | case4 inClass read c text hline ih =>
    obtain ⟨body, tail, rfl, hlength, hbehind⟩ := ih hf
    refine ⟨'\\' :: c :: body, tail, rfl, ?_, fun behind => ?_⟩
    · simp [hlength]; omega
    · simp [regexFrom, hline, hbehind]; omega
  | case5 inClass read c text hlast hescape hslash =>
    have hc := ne_backslash hlast hescape
    refine ⟨c :: text.takeWhile isRegexFlag, text.dropWhile isRegexFlag, ?_, ?_, fun behind => ?_⟩
    · simp
    · simp; omega
    · rw [List.cons_append, regexFrom_of_ne hc, if_pos hslash, List.takeWhile_append_of_pos]
      · simp; omega
      · intro d hd
        exact List.all_eq_true.1 List.all_takeWhile d hd
  | case6 => cases hf
  | case7 inClass read c text hlast hescape hslash hline ih =>
    have hc := ne_backslash hlast hescape
    obtain ⟨body, tail, rfl, hlength, hbehind⟩ := ih hf
    refine ⟨c :: body, tail, rfl, ?_, fun behind => ?_⟩
    · simp [hlength]; omega
    · rw [List.cons_append, regexFrom_of_ne hc, if_neg hslash, if_neg hline, hbehind]
      simp; omega

end ScriptMinifier.Lexeme
