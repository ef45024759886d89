-- The tokens of a script tile it. Whatever a slash is said to stand for at each call, the tokens
-- that a lexer hands out stand one right behind the other, and once the end is reached they have
-- spelled out the whole script.
import Mathlib.Data.List.Chain
import ScriptMinifier.Proofs.Tokens

namespace ScriptMinifier

open Character

/-! ## Runs of blanks -/

/-- A run of blanks, on one line or on more. -/
def TokenKind.isBlankRun : TokenKind → Bool
  | blank | lineBreak => true
  | _ => false

theorem TokenKind.isBlankRun_of_isSignificant {kind : TokenKind} (h : kind.isSignificant = true) :
    kind.isBlankRun = false := by
  cases kind <;> first | rfl | cases h

namespace Lexeme

/-- The first character of a text tells whether it starts with a run of blanks. -/
theorem isBlankRun_scan (slash : Slash) (atLineStart : Bool) (text : Text) :
    (scan slash atLineStart text).1.isBlankRun = text.head?.any isBlank := by
  cases text with
  | nil => rfl
  | cons c text =>
    rw [scan, List.head?_cons, Option.any_some]
    by_cases hblank : isBlank c = true
    · simp only [hblank, if_true]
      split <;> rfl
    · have hblank : isBlank c = false := by simpa using hblank
      simp only [hblank, Bool.false_eq_true, if_false]
      split
      · rfl
      split
      · rfl
      · exact TokenKind.isBlankRun_of_isSignificant (kind_significant slash c text).1

/-- A run of blanks is not followed by one more blank. -/
theorem head?_rest_scan {slash : Slash} {atLineStart : Bool} {text : Text}
    (h : text.head?.any isBlank = true) :
    ((scan slash atLineStart text).2.rest text).head?.any isBlank = false := by
  cases text with
  | nil => cases h
  | cons c text =>
    have hblank : isBlank c = true := by simpa using h
    have hrest : (scan slash atLineStart (c :: text)).2.rest (c :: text) =
        (c :: text).dropWhile isBlank := by
      rw [scan, if_pos hblank]
      exact (congrArg (List.drop _) List.takeWhile_append_dropWhile.symm).trans List.drop_left
    rw [hrest]
    have := List.head?_dropWhile_not isBlank (c :: text)
    cases hhead : ((c :: text).dropWhile isBlank).head? with
    | none => rfl
    | some d => simpa [hhead] using this

end Lexeme

/-! ## Calls of a lexer -/

namespace Lexer

/-- One call after the other on the same lexer, each with what a slash stands for. The lexer is
used on after an error and after the end. -/
def calls (lexer : Lexer) : List Slash → List (Except LexError Token × Lexer)
  | [] => []
  | slash :: slashes => lexer.next slash :: (lexer.next slash).2.calls slashes

theorem isBlankRun_of_next {lexer after : Lexer} {slash : Slash} {token : Token}
    (h : lexer.next slash = (.ok token, after)) :
    token.kind.isBlankRun = lexer.rest.head?.any isBlank ∧
      (token.kind.isBlankRun = true → after.rest.head?.any isBlank = false) := by
  have hblank := Lexeme.isBlankRun_scan slash lexer.isAtLineStart lexer.rest
  unfold next peek at h
  obtain ⟨htoken, hafter⟩ := Prod.mk.inj h
  have hkind : token.kind = (Lexeme.scan slash lexer.isAtLineStart lexer.rest).1 := by
    dsimp only at htoken
    split at htoken
    · cases htoken
    · cases htoken
      rfl
  rw [hkind]
  refine ⟨hblank, fun hrun => ?_⟩
  rw [← hafter]
  exact Lexeme.head?_rest_scan (hblank.symm.trans hrun)

end Lexer

/-- The tokens up to the first error. -/
def tokensBeforeError : List (Except LexError Token × Lexer) → List Token
  | (.ok token, _) :: later => token :: tokensBeforeError later
  | _ => []

/-! ## Tiles -/

/-- The tokens stand one behind the other at the start of `ahead`, when `behind` has been read. -/
inductive Tiles : (behind ahead : Text) → List Token → Prop where
  | nil (behind ahead : Text) : Tiles behind ahead []
  | cons {behind ahead left : Text} {token : Token} {later : List Token}
      (start : token.start = Text.byteSize behind) (spelled : token.text ++ left = ahead)
      (ended : token.kind = .endOfInput → ahead = [])
      (filled : token.kind ≠ .endOfInput → token.text ≠ [])
      (blank : token.kind.isBlankRun = ahead.head?.any isBlank)
      (stops : token.kind.isBlankRun = true → left.head?.any isBlank = false)
      (next : Tiles (behind ++ token.text) left later) : Tiles behind ahead (token :: later)

/-- Whatever the slashes stand for, the tokens of a lexer tile what it has not read yet. -/
theorem Lexer.tiles_calls (lexer : Lexer) (behind : Text)
    (h : lexer.offset = Text.byteSize behind) (slashes : List Slash) :
    Tiles behind lexer.rest (tokensBeforeError (lexer.calls slashes)) := by
  induction slashes generalizing lexer behind with
  | nil => exact .nil _ _
  | cons slash slashes ih =>
    rw [calls]
    rcases hnext : lexer.next slash with ⟨error | token, after⟩
    · exact .nil _ _
    · have htakes := takes_of_next hnext
      obtain ⟨hblank, hstops⟩ := isBlankRun_of_next hnext
      refine .cons (htakes.start.trans h) htakes.spelled htakes.ended htakes.filled hblank hstops ?_
      apply ih
      rw [htakes.offset, h, Text.byteSize_append]

namespace Tiles

variable {behind ahead : Text} {read : List Token}

theorem start_of_head? (h : Tiles behind ahead read) :
    ∀ token ∈ read.head?, token.start = Text.byteSize behind := by
  cases h with
  | nil => simp
  | cons hstart => simpa using hstart

/-- Each token starts where the one before it has ended. -/
theorem isChain_stop (h : Tiles behind ahead read) :
    read.IsChain fun token next => next.start = token.stop := by
  induction h with
  | nil => exact .nil
  | cons hstart _ _ _ _ _ hlater ih =>
    refine List.isChain_cons.2 ⟨fun next hnext => ?_, ih⟩
    rw [hlater.start_of_head? next hnext, Text.byteSize_append, Token.stop, hstart]

/-- Each token has the text that stands between its offsets. -/
theorem text_eq_slice (h : Tiles behind ahead read) :
    ∀ token ∈ read, token.text = Text.slice (behind ++ ahead) token.start token.stop := by
  induction h with
  | nil => simp
  | @cons behind ahead left token later hstart hspelled _ _ _ _ _ ih =>
    rw [List.forall_mem_cons]
    constructor
    · rw [← hspelled, ← List.append_assoc, Token.stop, hstart, Text.slice_append]
    · intro other hother
      rw [ih other hother, ← hspelled, List.append_assoc]

theorem ended_or_filled (h : Tiles behind ahead read) :
    ∀ token ∈ read, token.kind = .endOfInput ∨ token.text ≠ [] := by
  induction h with
  | nil => simp
  | cons _ _ _ hfilled _ _ _ ih =>
    rw [List.forall_mem_cons]
    exact ⟨Decidable.or_iff_not_imp_left.2 hfilled, ih⟩

/-- The tokens spell out a first part of the text. -/
theorem exists_left (h : Tiles behind ahead read) :
    ∃ left, read.flatMap Token.text ++ left = ahead := by
  induction h with
  | nil behind ahead => exact ⟨ahead, rfl⟩
  | cons _ hspelled _ _ _ _ _ ih =>
    obtain ⟨left, hleft⟩ := ih
    refine ⟨left, ?_⟩
    rw [List.flatMap_cons, List.append_assoc, hleft, hspelled]

/-- Once the end is among the tokens, they have spelled out everything. -/
theorem flatMap_text (h : Tiles behind ahead read)
    (hend : ∃ token ∈ read, token.kind = .endOfInput) : read.flatMap Token.text = ahead := by
  induction h with
  | nil => simp at hend
  | cons hstart hspelled hended hfilled hblank hstops hlater ih =>
    obtain ⟨token, hmem, hk⟩ := hend
    rcases List.mem_cons.1 hmem with rfl | hmem
    · -- Nothing is left, so the first part is all there is.
      obtain ⟨left, hleft⟩ :=
        (Tiles.cons hstart hspelled hended hfilled hblank hstops hlater).exists_left
      rw [hended hk] at hleft ⊢
      exact (List.append_eq_nil_iff.1 hleft).1
    · rw [List.flatMap_cons, ih ⟨token, hmem, hk⟩, hspelled]

/-- Two runs of blanks never stand side by side. -/
theorem isChain_blanks (h : Tiles behind ahead read) :
    read.IsChain fun token next =>
      ¬ (token.kind.isBlankRun = true ∧ next.kind.isBlankRun = true) := by
  induction h with
  | nil => exact .nil
  | cons _ _ _ _ _ hstops hlater ih =>
    refine List.isChain_cons.2 ⟨?_, ih⟩
    rintro next hnext ⟨hrun, hrun'⟩
    cases hlater with
    | nil => simp at hnext
    | cons _ _ _ _ hblank =>
      obtain rfl := Option.some.inj hnext
      rw [hblank, hstops hrun] at hrun'
      cases hrun'

end Tiles

/-! ## The calls of a reader -/

/-- A reader that comes to the end has called its lexer with some choice of slashes, and it leaves
the token of the end away. -/
theorem Reader.exists_calls {reader : Reader} {read : List Token}
    (h : reader.tokensFrom [] = .ok read) :
    ∃ (slashes : List Slash) (last : Token),
      tokensBeforeError (reader.lexer.calls slashes) = read ++ [last] := by
  induction reader using turns generalizing read with
  | failed reader error lexer hn => simp [tokensFrom_error hn] at h
  | ended reader token lexer hn hk =>
    rw [tokensFrom_end hn hk] at h
    cases h
    refine ⟨[reader.tracker.slash], token, ?_⟩
    rw [Lexer.calls, show reader.lexer.next reader.tracker.slash = _ from hn]
    rfl
  | turn reader token lexer hn hk ih =>
    rw [tokensFrom_nil_token hn hk] at h
    cases hrest : (reader.after token lexer).tokensFrom [] with
    | error error => simp [hrest, Except.map] at h
    | ok rest =>
      simp only [hrest, Except.map, Except.ok.injEq] at h
      subst h
      obtain ⟨slashes, last, hcalls⟩ := ih hrest
      rw [lexer_after] at hcalls
      refine ⟨reader.tracker.slash :: slashes, last, ?_⟩
      rw [Lexer.calls, show reader.lexer.next reader.tracker.slash = _ from hn, tokensBeforeError,
        hcalls, List.cons_append]

/-! ## The law -/

/-- Whatever a slash stands for at each call, the tokens up to the first error tile the script:
the first starts at its first byte, each next one where the one before has ended, each is the text
between its offsets and is not empty, unless it is the end, and with the end they spell out the
script. So the tokens of a reader spell out the script, none of them is empty, and no two runs of
blanks stand side by side. -/
theorem tokens_tile_the_script (source : Text) :
    (∀ slashes : List Slash,
      let read := tokensBeforeError ((Lexer.ofText source).calls slashes)
      (∀ token ∈ read.head?, token.start = 0) ∧
      (read.IsChain fun token next => next.start = token.stop) ∧
      (∀ token ∈ read, token.text = Text.slice source token.start token.stop) ∧
      (∀ token ∈ read, token.kind = .endOfInput ∨ token.text ≠ []) ∧
      ((∃ token ∈ read, token.kind = .endOfInput) → read.flatMap Token.text = source)) ∧
    ∀ read, tokens source = .ok read →
      read.flatMap Token.text = source ∧ (∀ token ∈ read, token.text ≠ []) ∧
      read.IsChain fun token next =>
        ¬ (token.kind.isBlankRun = true ∧ next.kind.isBlankRun = true) := by
  have htiles : ∀ slashes,
      Tiles [] source (tokensBeforeError ((Lexer.ofText source).calls slashes)) :=
    (Lexer.ofText source).tiles_calls [] rfl
  refine ⟨fun slashes => ?_, fun read hread => ?_⟩
  · have h := htiles slashes
    exact ⟨h.start_of_head?, h.isChain_stop, h.text_eq_slice, h.ended_or_filled, h.flatMap_text⟩
  · obtain ⟨hconsecutive, hspelled⟩ := consecutive_tokens hread
    refine ⟨hspelled, fun token => hconsecutive.text_ne_nil_of_mem, ?_⟩
    obtain ⟨slashes, last, hcalls⟩ := Reader.exists_calls hread
    have hchain := (htiles slashes).isChain_blanks
    rw [show tokensBeforeError ((Lexer.ofText source).calls slashes) = _ from hcalls] at hchain
    exact hchain.left_of_append

/-- The tokens of this line tile it if every slash divides, and also if the reader tells what each
slash stands for. -/
theorem line_with_a_regex_and_a_comment_is_tiled :
    (tokensBeforeError ((Lexer.ofText "x = /é/ // y\n".toList).calls
        (.replicate 12 .division))).flatMap Token.text = "x = /é/ // y\n".toList ∧
      ∃ read, tokens "x = /é/ // y\n".toList = .ok read ∧ read.length = 8 ∧
        (∀ token ∈ read, token.text ≠ []) ∧
        read.IsChain fun token next =>
          ¬ (token.kind.isBlankRun = true ∧ next.kind.isBlankRun = true) := by
  have hread : tokens "x = /é/ // y\n".toList = .ok
      [⟨.identifier, ['x'], 0, false⟩, ⟨.blank, [' '], 1, false⟩, ⟨.punctuator, ['='], 2, false⟩,
        ⟨.blank, [' '], 3, false⟩, ⟨.regex, "/é/".toList, 4, false⟩, ⟨.blank, [' '], 8, false⟩,
        ⟨.lineComment, "// y".toList, 9, false⟩, ⟨.lineBreak, ['\n'], 13, false⟩] :=
    eq_ok_of_toOption (by decide +kernel)
  obtain ⟨hcalls, htokens⟩ := tokens_tile_the_script "x = /é/ // y\n".toList
  obtain ⟨_, hfilled, hblanks⟩ := htokens _ hread
  exact ⟨(hcalls _).2.2.2.2 (by decide +kernel), _, hread, rfl, hfilled, hblanks⟩

end ScriptMinifier
