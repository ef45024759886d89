-- Templates end where their grammar says, as long as their braces can be counted. The scan of a
-- template keeps a count of open braces in 32 bits, and a template inside of it is scanned by the
-- same loop. It passes each part that the grammar knows, and where it comes to an end, the parts
-- that it has passed make up a template. One brace too many ends a substitution that the grammar
-- goes on with.
import Mathlib.Data.Nat.Count
import ScriptMinifier.Proofs.TemplateParts

namespace ScriptMinifier

open Character

/-! ## The count of braces -/

namespace Lexeme

theorem deeper_of_lt {depth : Nat} (h : depth + 1 < 2 ^ 31) : deeper depth = depth + 1 := by
  have hheld : (Int32.ofNat depth).toInt = depth := Int32.toInt_ofNat_of_lt (by omega)
  rw [deeper, Int32.toNatClampNeg, Int32.toInt_add, hheld, Int32.toInt_one, Int.bmod_eq_of_le]
  all_goals omega

theorem deeper_largest : deeper (2 ^ 31 - 1) = 0 := by decide

end Lexeme

namespace Code

variable {code : Code} {start stop depth next : Nat} {c : Char}

/-- How many braces are opened before the offset. -/
def bracesBefore (code : Code) (offset : Nat) : Nat :=
  Nat.count (fun i => code.peek i = some '{') offset

/-- With so many braces open at `next`, all that are opened up to `stop` can be counted. -/
def Counts (code : Code) (depth next stop : Nat) : Prop :=
  depth + code.bracesBefore stop < code.bracesBefore next + 2 ^ 31

theorem bracesBefore_mono (code : Code) : Monotone code.bracesBefore :=
  Nat.count_monotone _

theorem bracesBefore_succ (hpeek : code.peek next = some '{') :
    code.bracesBefore (next + 1) = code.bracesBefore next + 1 := by
  rw [bracesBefore, Nat.count_succ, if_pos hpeek]
  rfl

namespace Counts

/-- A part of what can be counted can be counted. -/
theorem within {inner first last : Nat} (h : code.Counts depth next stop) (hdepth : inner ≤ depth)
    (hfirst : next ≤ first) (hlast : last ≤ stop) : code.Counts inner first last := by
  have hbefore := code.bracesBefore_mono hfirst
  have hbehind := code.bracesBefore_mono hlast
  unfold Counts at h ⊢
  omega

theorem later {first : Nat} (h : code.Counts depth next stop) (hfirst : next ≤ first) :
    code.Counts depth first stop :=
  h.within (Nat.le_refl _) hfirst (Nat.le_refl _)

theorem earlier {last : Nat} (h : code.Counts depth next stop) (hlast : last ≤ stop) :
    code.Counts depth next last :=
  h.within (Nat.le_refl _) (Nat.le_refl _) hlast

theorem opened (h : code.Counts depth next stop) (hpeek : code.peek next = some '{') :
    code.Counts (depth + 1) (next + 1) stop := by
  have hbrace := bracesBefore_succ hpeek
  unfold Counts at h ⊢
  omega

theorem lt (h : code.Counts depth next stop) (hle : next ≤ stop) : depth < 2 ^ 31 := by
  have hbefore := code.bracesBefore_mono hle
  unfold Counts at h
  omega

instance : Decidable (code.Counts depth next stop) := inferInstanceAs (Decidable (_ < _))

end Counts

/-! ## One step of the scan -/

section

variable {origin : Nat} {crossed : Bool}

theorem templateFrom?_end (hpeek : code.peek next = some '`') :
    code.templateFrom? origin 0 next crossed = some { next := next + 1, crossed } := by
  rw [templateFrom?, hpeek]
  rfl

theorem templateFrom?_escape (hpeek : code.peek next = some '\\')
    (hescaped : code.peek (next + 1) = some c) :
    code.templateFrom? origin 0 next crossed = code.templateFrom? origin 0 (next + 2) crossed := by
  rw [templateFrom?, hpeek, hescaped]
  rfl

theorem templateFrom?_opening (hdollar : code.peek next = some '$')
    (hbrace : code.peek (next + 1) = some '{') :
    code.templateFrom? origin 0 next crossed = code.templateFrom? origin 1 (next + 2) crossed := by
  rw [templateFrom?, hdollar, hbrace, step?_of_peek hbrace]
  rfl

theorem templateFrom?_textByte (hpeek : code.peek next = some c) (hplain : c ≠ '`' ∧ c ≠ '\\')
    (hnone : ¬ (c = '$' ∧ code.peek (next + 1) = some '{')) :
    code.templateFrom? origin 0 next crossed = code.templateFrom? origin 0 (next + 1) crossed := by
  have hopening : (c == '$' && code.peek (next + 1) == some '{') = false := by
    rw [Bool.eq_false_iff]
    simpa using hnone
  rw [templateFrom?, hpeek]
  simp only [beq_false_of_ne hplain.1, beq_false_of_ne hplain.2, hopening, Bool.false_eq_true,
    if_false, if_true]

theorem templateFrom?_braceOpen (hpeek : code.peek next = some '{') :
    code.templateFrom? origin (depth + 1) next crossed =
      code.templateFrom? origin (Lexeme.deeper (depth + 1)) (next + 1) crossed := by
  rw [templateFrom?, hpeek, step?_of_peek hpeek]
  rfl

theorem templateFrom?_braceClose (hpeek : code.peek next = some '}') :
    code.templateFrom? origin (depth + 1) next crossed =
      code.templateFrom? origin depth (next + 1) crossed := by
  rw [templateFrom?, hpeek, step?_of_peek hpeek]
  rfl

/-- As long as the braces can be counted, there is one more of them. -/
theorem Counts.deeper_eq (h : code.Counts (depth + 1) next stop)
    (hpeek : code.peek next = some '{') (hlt : next < stop) :
    Lexeme.deeper (depth + 1) = depth + 2 :=
  Lexeme.deeper_of_lt ((h.opened hpeek).lt hlt)

end

/-! ## From the grammar to the scan -/

/-- If its braces can be counted, the scan of a template comes from the start of such a part to its
end. Behind a substitution there is one open brace less. -/
def Passes (code : Code) : TemplatePart → (start stop : Nat) → Prop
  | .template, start, stop => code.Counts 0 start stop →
    Reaches stop (code.templateFrom? start 0 (start + 1) false)
  | .text, start, stop | .textItem, start, stop => code.Counts 0 start stop →
    ∀ origin crossed, ∃ crossed',
      code.templateFrom? origin 0 start crossed = code.templateFrom? origin 0 stop crossed'
  | .substitution, start, stop => ∀ depth, code.Counts (depth + 1) start stop →
    ∀ origin crossed, ∃ crossed', code.templateFrom? origin (depth + 1) start crossed =
      code.templateFrom? origin depth stop crossed'
  | .script, start, stop | .scriptItem, start, stop => ∀ depth, code.Counts (depth + 1) start stop →
    ∀ origin crossed, ∃ crossed', code.templateFrom? origin (depth + 1) start crossed =
      code.templateFrom? origin (depth + 1) stop crossed'

/-- The scan passes an item that is read by itself. -/
theorem exists_pass_of_item? (hpeek : code.peek start = some c) (hopen : c ≠ '{') (hclose : c ≠ '}')
    (hitem : Reaches stop (Lexeme.item? code start c)) (hlt : start < stop)
    (origin depth : Nat) (crossed : Bool) :
    ∃ crossed', code.templateFrom? origin (depth + 1) start crossed =
      code.templateFrom? origin (depth + 1) stop crossed' := by
  obtain ⟨crossedInside, hitem⟩ := hitem
  exact ⟨crossed || crossedInside, Lexeme.templateFrom?_item hpeek hopen hclose hitem hlt⟩

theorem IsPart.passes_of_plain (h : code.IsPart .scriptItem start stop)
    (hpeek : code.peek start = some c) (hplain : c ∉ ['{', '}', '`']) :
    code.Passes .scriptItem start stop := by
  have hscan := (reaches_substitutionItem?_iff hpeek hplain).2 h
  simp only [List.mem_cons, List.not_mem_nil, or_false, not_or] at hplain
  obtain ⟨hopen, hclose, hbacktick⟩ := hplain
  have hitem : Reaches stop (Lexeme.item? code start c) := by
    rw [Lexeme.item?, beq_false_of_ne hbacktick]
    exact hscan
  have hlt := h.progress.2 (by simp) (by simp)
  exact fun depth _ origin => exists_pass_of_item? hpeek hopen hclose hitem hlt origin depth

/-- Each part is passed within what can be counted of the whole. -/
theorem IsPart.passes {part : TemplatePart} (h : code.IsPart part start stop) :
    code.Passes part start stop := by
  induction h with
  | template hopened _ hclosed ih =>
    intro hcounts
    obtain ⟨crossed, hinside⟩ :=
      ih ((hcounts.later (Nat.le_succ _)).earlier (Nat.le_succ _)) _ false
    exact ⟨crossed, hinside.trans (templateFrom?_end hclosed)⟩
  | textEnd => exact fun _ origin crossed => ⟨crossed, rfl⟩
  | scriptEnd => exact fun depth _ origin crossed => ⟨crossed, rfl⟩
  | textMore hitem hitems ihfirst ihmore =>
    intro hcounts origin crossed
    obtain ⟨crossed₁, hfirst⟩ := ihfirst (hcounts.earlier hitems.progress.1) origin crossed
    obtain ⟨crossed₂, hmore⟩ := ihmore (hcounts.later hitem.progress.1) origin crossed₁
    exact ⟨crossed₂, hfirst.trans hmore⟩
  | scriptMore hitem hitems ihfirst ihmore =>
    intro depth hcounts origin crossed
    obtain ⟨crossed₁, hfirst⟩ := ihfirst depth (hcounts.earlier hitems.progress.1) origin crossed
    obtain ⟨crossed₂, hmore⟩ := ihmore depth (hcounts.later hitem.progress.1) origin crossed₁
    exact ⟨crossed₂, hfirst.trans hmore⟩
  | escape hbackslash hescaped =>
    exact fun _ origin crossed => ⟨crossed, templateFrom?_escape hbackslash hescaped⟩
  | textByte hpeek hplain hnone =>
    exact fun _ origin crossed => ⟨crossed, templateFrom?_textByte hpeek hplain hnone⟩
  | opening hdollar hbrace _ ih =>
    intro hcounts origin crossed
    have hopened := (hcounts.later (Nat.le_succ _)).opened hbrace
    obtain ⟨crossed', hinside⟩ := ih 0 hopened origin crossed
    exact ⟨crossed', (templateFrom?_opening hdollar hbrace).trans hinside⟩
  | substitution _ hclosed ih =>
    intro depth hcounts origin crossed
    obtain ⟨crossed', hinside⟩ := ih depth (hcounts.earlier (Nat.le_succ _)) origin crossed
    exact ⟨crossed', hinside.trans (templateFrom?_braceClose hclosed)⟩
  | @braces start stop hopened hinside hclosed ih =>
    intro depth hcounts origin crossed
    have hle : start + 1 ≤ stop := hinside.progress.1
    obtain ⟨crossed', hpassed⟩ := ih (depth + 1)
      ((hcounts.opened hopened).earlier (Nat.le_succ _)) origin crossed
    refine ⟨crossed', ?_⟩
    rw [templateFrom?_braceOpen hopened, hcounts.deeper_eq hopened (by omega), hpassed,
      templateFrom?_braceClose hclosed]
  | nested hinside ih =>
    have hlt := hinside.progress.2 (by simp) (by simp)
    cases hinside with
    | template hopened _ _ =>
      intro depth hcounts origin
      have hread := ih (hcounts.within (Nat.zero_le _) (Nat.le_refl _) (Nat.le_refl _))
      refine exists_pass_of_item? hopened (by decide) (by decide) ?_ hlt origin depth
      rw [Lexeme.item?, step?_of_peek hopened]
      exact hread
  | string hopened hquote hread =>
    exact (IsPart.string hopened hquote hread).passes_of_plain hopened (plain_of_isQuote hquote)
  | blockComment comment =>
    exact (IsPart.blockComment comment).passes_of_plain comment.slash (by decide)
  | lineComment comment =>
    exact (IsPart.lineComment comment).passes_of_plain comment.slash (by decide)
  | scriptByte hpeek hplain hcomment =>
    exact (IsPart.scriptByte hpeek hplain hcomment).passes_of_plain hpeek (plain_of_not_mem hplain)

/-! ## From the scan to the grammar -/

/-- From `next` on, with so many open braces, a template goes on up to `stop`. -/
def Ends (code : Code) : (depth next stop : Nat) → Prop
  | 0, next, stop => ∃ last, code.IsPart .text next last ∧ code.peek last = some '`' ∧
    stop = last + 1
  | depth + 1, next, stop => ∃ middle, code.IsPart .substitution next middle ∧
    code.Ends depth middle stop

namespace Ends

variable {depth next middle : Nat}

theorem text (hitem : code.IsPart .textItem next middle) (h : code.Ends 0 middle stop) :
    code.Ends 0 next stop := by
  obtain ⟨last, hmore, hlast, hstop⟩ := h
  exact ⟨last, .textMore hitem hmore, hlast, hstop⟩

theorem script (hitem : code.IsPart .scriptItem next middle)
    (h : code.Ends (depth + 1) middle stop) : code.Ends (depth + 1) next stop := by
  obtain ⟨last, hsubstitution, hend⟩ := h
  cases hsubstitution with
  | substitution hinside hclosed =>
    exact ⟨_, .substitution (.scriptMore hitem hinside) hclosed, hend⟩

theorem opening (hdollar : code.peek next = some '$') (hbrace : code.peek (next + 1) = some '{')
    (h : code.Ends 1 (next + 2) stop) : code.Ends 0 next stop := by
  obtain ⟨last, hsubstitution, hend⟩ := h
  exact hend.text (.opening hdollar hbrace hsubstitution)

theorem braceOpen (hopened : code.peek next = some '{')
    (h : code.Ends (depth + 2) (next + 1) stop) : code.Ends (depth + 1) next stop := by
  obtain ⟨last, hsubstitution, hend⟩ := h
  cases hsubstitution with
  | substitution hinside hclosed => exact hend.script (.braces hopened hinside hclosed)

theorem braceClose (hclosed : code.peek next = some '}') (h : code.Ends depth (next + 1) stop) :
    code.Ends (depth + 1) next stop :=
  ⟨next + 1, .substitution (.scriptEnd next) hclosed, h⟩

end Ends

/-- Where the scan of an item ends, the item ends, if this holds of the templates in it. -/
theorem isPart_of_reaches_item? (hpeek : code.peek start = some c) (hopen : c ≠ '{')
    (hclose : c ≠ '}') (h : Reaches stop (Lexeme.item? code start c))
    (htemplate : Reaches stop (code.templateFrom? start 0 (start + 1) false) →
      code.Ends 0 (start + 1) stop) : code.IsPart .scriptItem start stop := by
  unfold Lexeme.item? at h
  split at h
  · next hbacktick =>
    obtain rfl : c = '`' := by simpa using hbacktick
    rw [step?_of_peek hpeek] at h
    obtain ⟨last, hinside, hlast, rfl⟩ := htemplate h
    exact .nested (.template hpeek hinside hlast)
  · next hbacktick =>
    refine (reaches_substitutionItem?_iff hpeek ?_).1 h
    simp only [List.mem_cons, List.not_mem_nil, or_false, not_or]
    exact ⟨hopen, hclose, by simpa using hbacktick⟩

/-- One step in the text of a template. -/
theorem ends_of_reaches_text {origin next : Nat} {crossed : Bool}
    (ih : ∀ {depth later crossed}, next < later → code.Counts depth later stop →
      Reaches stop (code.templateFrom? origin depth later crossed) → code.Ends depth later stop)
    (hpeek : code.peek next = some c) (hcounts : code.Counts 0 next stop)
    (h : Reaches stop (code.templateFrom? origin 0 next crossed)) : code.Ends 0 next stop := by
  by_cases hbacktick : c = '`'
  · subst hbacktick
    rw [templateFrom?_end hpeek] at h
    exact ⟨next, .textEnd next, hpeek, reaches_some.1 h⟩
  by_cases hbackslash : c = '\\'
  · subst hbackslash
    cases hescaped : code.peek (next + 1) with
    | none =>
      rw [templateFrom?, hpeek, hescaped] at h
      exact absurd h (not_reaches_fail? _ _ _)
    | some d =>
      rw [templateFrom?_escape hpeek hescaped] at h
      exact (ih (by omega) (hcounts.later (by omega)) h).text (.escape hpeek hescaped)
  by_cases hopening : c = '$' ∧ code.peek (next + 1) = some '{'
  · obtain ⟨rfl, hbrace⟩ := hopening
    rw [templateFrom?_opening hpeek hbrace] at h
    have hopened := (hcounts.later (Nat.le_succ _)).opened hbrace
    exact (ih (by omega) hopened h).opening hpeek hbrace
  · rw [templateFrom?_textByte hpeek ⟨hbacktick, hbackslash⟩ hopening] at h
    exact (ih (by omega) (hcounts.later (by omega)) h).text
      (.textByte hpeek ⟨hbacktick, hbackslash⟩ hopening)

/-- One step in a nested script. A template in it is scanned with a start and an end of its own. -/
theorem ends_of_reaches_script {origin depth next : Nat} {crossed : Bool}
    (ih : ∀ {origin depth later stop crossed}, next < later → code.Counts depth later stop →
      Reaches stop (code.templateFrom? origin depth later crossed) → code.Ends depth later stop)
    (hpeek : code.peek next = some c) (hcounts : code.Counts (depth + 1) next stop)
    (h : Reaches stop (code.templateFrom? origin (depth + 1) next crossed)) :
    code.Ends (depth + 1) next stop := by
  by_cases hopen : c = '{'
  · subst hopen
    rw [templateFrom?_braceOpen hpeek] at h
    have hlt := lt_of_reaches_templateFrom? h
    rw [hcounts.deeper_eq hpeek (by omega)] at h
    exact (ih (by omega) (hcounts.opened hpeek) h).braceOpen hpeek
  by_cases hclose : c = '}'
  · subst hclose
    rw [templateFrom?_braceClose hpeek] at h
    have hclosed := hcounts.within (Nat.le_succ depth) (Nat.le_succ next) (Nat.le_refl _)
    exact (ih (by omega) hclosed h).braceClose hpeek
  rw [Lexeme.templateFrom?_otherwise hpeek hopen hclose] at h
  obtain ⟨item, hitem, h⟩ := exists_of_reaches_bind h
  cases herror : item.error with
  | some error =>
    obtain ⟨crossed', h⟩ := h
    rw [herror] at h
    cases congrArg Halt.error (Option.some.inj h)
  | none =>
    rw [herror, if_neg (by simp)] at h
    split at h
    · next hforward =>
      have hlt := lt_of_reaches_templateFrom? h
      have hread : Reaches item.next (Lexeme.item? code next c) := by
        rw [hitem]
        exact reaches_of_error herror
      have hinside : code.Counts 0 (next + 1) item.next :=
        hcounts.within (Nat.zero_le _) (Nat.le_succ _) (Nat.le_of_lt hlt)
      exact (ih hforward (hcounts.later (Nat.le_of_lt hforward)) h).script
        (isPart_of_reaches_item? hpeek hopen hclose hread (ih (Nat.lt_succ_self _) hinside))
    · obtain ⟨_, h⟩ := h
      cases h

/-- Where the scan has come to an end, the template ends. -/
theorem ends_of_reaches {origin depth next stop : Nat} {crossed : Bool}
    (hcounts : code.Counts depth next stop)
    (h : Reaches stop (code.templateFrom? origin depth next crossed)) :
    code.Ends depth next stop := by
  cases hpeek : code.peek next with
  | none =>
    rw [templateFrom?, hpeek] at h
    exact absurd h (not_reaches_fail? _ _ _)
  | some c =>
    have hinside := lt_length_of_peek hpeek
    cases depth with
    | zero => exact ends_of_reaches_text (fun hlater => ends_of_reaches) hpeek hcounts h
    | succ depth => exact ends_of_reaches_script (fun hlater => ends_of_reaches) hpeek hcounts h
termination_by code.length - next
decreasing_by all_goals omega

theorem reaches_template?_iff (hpeek : code.peek start = some '`')
    (hcounts : code.Counts 0 start stop) :
    Reaches stop (code.template? start) ↔ code.IsPart .template start stop := by
  rw [template?, step?_of_peek hpeek]
  constructor
  · intro h
    obtain ⟨last, hinside, hlast, rfl⟩ := ends_of_reaches (hcounts.later (Nat.le_succ _)) h
    exact .template hpeek hinside hlast
  · intro h
    exact h.passes hcounts

end Code

/-! ## Among the characters -/

theorem Code.reaches_halt_iff {stop : Nat} (scan : Scan) (source : Text) (start : Nat)
    (whole : Text) :
    Reaches stop (some (scan.halt source start whole)) ↔
      scan.fault = none ∧ reach start whole scan.length = stop := by
  cases hfault : scan.fault with
  | some fault =>
    rw [Scan.halt, hfault]
    constructor
    · rintro ⟨crossed, h⟩
      cases h
    · rintro ⟨h, _⟩
      cases h
  | none =>
    rw [Scan.halt, hfault, Option.map_none, reaches_some]
    simp [eq_comm]

/-- The scan of a template among the characters ends where the grammar says. -/
theorem Lexeme.isPart_template_iff {source tail : Text} {offset stop : Nat}
    (h : Stands source offset ('`' :: tail)) (hcounts : Code.Counts source.bytes 0 offset stop) :
    Code.IsPart source.bytes .template offset stop ↔ (template ('`' :: tail)).fault = none ∧
      reach offset ('`' :: tail) (template ('`' :: tail)).length = stop := by
  rw [← Code.reaches_template?_iff (h.peek_ascii (by decide)) hcounts,
    template?_bytes h (by decide), Code.reaches_halt_iff]

/-! ## Braces that cannot be counted -/

/-- A template with an opening brace and more of them in its substitution, and none that closes. -/
def unclosedTemplate (more : Nat) : Text :=
  '`' :: '$' :: '{' :: (List.replicate more '{' ++ ['`'])

theorem length_unclosedTemplate (more : Nat) : (unclosedTemplate more).length = more + 4 := by
  simp [unclosedTemplate]

namespace Lexeme

theorem templateFrom_braceOpen (depth read : Nat) (crossed : Bool) (text : Text) :
    templateFrom (depth + 1) read crossed ('{' :: text) =
      templateFrom (deeper (depth + 1)) (read + 1) crossed text := by
  rw [templateFrom]

/-- Opening braces are counted one by one. -/
theorem templateFrom_braces {n depth : Nat} (h : depth + n + 1 < 2 ^ 31) (read : Nat)
    (crossed : Bool) (text : Text) :
    templateFrom (depth + 1) read crossed (List.replicate n '{' ++ text) =
      templateFrom (depth + n + 1) (read + n) crossed text := by
  induction n generalizing depth read with
  | zero => rfl
  | succ n ih =>
    rw [List.replicate_succ, List.cons_append, templateFrom_braceOpen, deeper_of_lt (by omega),
      ih (by omega), Nat.add_right_comm depth, Nat.add_assoc read, Nat.add_comm 1 n]
    rfl

/-- The brace behind the largest count ends the substitution, and the next backtick the template. -/
theorem template_unclosed {more : Nat} (h : more + 1 = 2 ^ 31) :
    template (unclosedTemplate more) = { length := more + 4 } := by
  obtain ⟨n, rfl⟩ : ∃ n, more = n + 1 := ⟨more - 1, by omega⟩
  have hlargest : deeper (0 + n + 1) = 0 := by
    rw [show 0 + n + 1 = 2 ^ 31 - 1 by omega]
    exact deeper_largest
  calc template (unclosedTemplate (n + 1))
      = templateFrom 1 3 false (List.replicate (n + 1) '{' ++ ['`']) := by
        rw [template, unclosedTemplate, List.drop_succ_cons, List.drop_zero, templateFrom]
    _ = templateFrom 1 3 false (List.replicate n '{' ++ ['{', '`']) := by
        rw [List.replicate_succ', List.append_assoc]
        rfl
    _ = templateFrom (0 + n + 1) (3 + n) false ['{', '`'] := templateFrom_braces (by omega) ..
    _ = templateFrom (deeper (0 + n + 1)) (3 + n + 1) false ['`'] := templateFrom_braceOpen ..
    _ = templateFrom 0 (3 + n + 1) false ['`'] := by rw [hlargest]
    _ = { length := 3 + n + 1 + 1 } := by simp [templateFrom]
    _ = { length := n + 1 + 4 } := by rw [show 3 + n + 1 + 1 = n + 1 + 4 by omega]

end Lexeme

/-- Without a closing brace the substitution has no end. -/
theorem Code.not_isPart_unclosed (more stop : Nat) :
    ¬ Code.IsPart (unclosedTemplate more).bytes .template 0 stop := by
  intro h
  have hstands := Stands.start (unclosedTemplate more)
  have hdollar : Code.peek (unclosedTemplate more).bytes 1 = some '$' :=
    (hstands.tail).peek_ascii rfl
  have hbrace : Code.peek (unclosedTemplate more).bytes 2 = some '{' :=
    (hstands.tail.tail).peek_ascii rfl
  obtain ⟨i, hclose⟩ := h.exists_braceClose hdollar hbrace
  obtain ⟨ahead, behind, hsource, _⟩ := Stands.of_peek rfl hclose
  have hmem : '}' ∈ unclosedTemplate more := by simp [hsource]
  simp [unclosedTemplate] at hmem

/-! ## The law -/

/-- Where a backtick stands among the bytes, a lexer that is set down there reads a template. With
fewer than 2 ^ 31 opening braces on the way, it does so up to the offset that the grammar gives, and
with so few of them up to the end, it gives an error if there is no such offset. There is at most
one. The scan of the template has a result among the bytes, and so it has from every later character
on and with any number of open braces. -/
theorem templates_end_where_their_grammar_says {source : Text} {offset : Nat}
    (h : Code.peek source.bytes offset = some '`') (margin : Margin) (slash : Slash) :
    let ahead := Text.dropBytes offset source
    let lexer : Lexer := { source, offset, rest := ahead, margin }
    (∀ stop, Code.Counts source.bytes 0 offset stop →
      ((∃ token after, lexer.next slash = (.ok token, after) ∧ token.kind = .template ∧
        after.offset = stop) ↔ Code.IsPart source.bytes .template offset stop)) ∧
    (∀ stop other, Code.IsPart source.bytes .template offset stop →
      Code.IsPart source.bytes .template offset other → stop = other) ∧
    (Code.Counts source.bytes 0 offset source.bytes.length →
      ((∃ error after, lexer.next slash = (.error error, after)) ↔
        ∀ stop, ¬ Code.IsPart source.bytes .template offset stop)) ∧
    Code.template? source.bytes offset =
      some ((Lexeme.template ahead).halt source offset ahead) ∧
    ∀ depth read crossed, ∃ halt,
      Code.templateFrom? source.bytes offset depth (reach offset ahead read) crossed =
        some halt := by
  intro ahead lexer
  obtain ⟨tail, hstands⟩ := Stands.of_peek (by decide) h
  have hahead : ahead = '`' :: tail := hstands.dropBytes_eq
  have hpeek : lexer.peek slash = (.template, Lexeme.template ahead) := by
    rw [Lexer.peek, show lexer.rest = ahead from rfl, hahead]
    cases margin <;> rfl
  have hinside : (lexer.skip .template (Lexeme.template ahead)).offset ≤ source.bytes.length := by
    show offset + Text.byteSize (ahead.take _) ≤ _
    rw [hahead]
    exact (hstands.parts _).append.offset_le
  have hiff : ∀ stop, Code.Counts source.bytes 0 offset stop →
      (Code.IsPart source.bytes .template offset stop ↔ (Lexeme.template ahead).fault = none ∧
        (lexer.skip .template (Lexeme.template ahead)).offset = stop) := by
    intro stop hcounts
    show _ ↔ _ ∧ reach offset ahead (Lexeme.template ahead).length = stop
    rw [hahead]
    exact Lexeme.isPart_template_iff hstands hcounts
  refine ⟨fun stop hcounts => ?_, fun stop other => Code.IsPart.template_unique,
    fun hcounts => ?_, ?_, fun depth read crossed => ?_⟩
  · rw [hiff stop hcounts]
    constructor
    · rintro ⟨token, after, hnext, _, rfl⟩
      cases hfault : (Lexeme.template ahead).fault with
      | none =>
        rw [Lexer.next_of_fault_none hpeek hfault] at hnext
        exact ⟨rfl, congrArg Lexer.offset (Prod.mk.inj hnext).2⟩
      | some fault =>
        rw [Lexer.next_of_fault hpeek hfault] at hnext
        cases hnext
    · rintro ⟨hfault, hstop⟩
      exact ⟨_, _, Lexer.next_of_fault_none hpeek hfault, rfl, hstop⟩
  · constructor
    · rintro ⟨error, after, hnext⟩ stop hpart
      have hfault := ((hiff stop (hcounts.earlier hpart.template_le_length)).1 hpart).1
      rw [Lexer.next_of_fault_none hpeek hfault] at hnext
      cases hnext
    · intro hnone
      cases hfault : (Lexeme.template ahead).fault with
      | none => exact absurd ((hiff _ (hcounts.earlier hinside)).2 ⟨hfault, rfl⟩) (hnone _)
      | some fault => exact ⟨_, _, Lexer.next_of_fault hpeek hfault⟩
  · rw [hahead]
    exact Lexeme.template?_bytes hstands (by decide)
  · rw [hahead]
    exact ⟨_, Lexeme.templateFrom?_bytes depth read crossed _ offset _ ⟨hstands, rfl⟩⟩

/-- The braces in a string and in comments do not end the substitution, and neither does the one of
a template in it. -/
theorem braces_in_a_substitution_do_not_end_it :
    let source : Text :=
      "é=`a\\`$x$\x7b \x7b'\x7d'\x7d/*\x7d*/`$\x7b1\x7d`//\x7d\n\x7d`;".toList
    Code.peek source.bytes 3 = some '`' ∧ Code.Counts source.bytes 0 3 34 ∧
      Code.IsPart source.bytes .template 3 34 := by
  intro source
  have hpeek : Code.peek source.bytes 3 = some '`' := by decide +kernel
  have hcounts : Code.Counts source.bytes 0 3 34 := by decide +kernel
  obtain ⟨hiff, _⟩ := templates_end_where_their_grammar_says hpeek .inline .division
  have htoken : ((Lexer.mk source 3 (Text.dropBytes 3 source) .inline).next .division).1 =
      .ok ⟨.template, Text.slice source 3 34, 3, false⟩ := eq_ok_of_toOption (by decide +kernel)
  have hread := (hiff 34 hcounts).1 ⟨_, _, Prod.ext htoken rfl, rfl, by decide +kernel⟩
  exact ⟨hpeek, hcounts, hread⟩

/-- After 2 ^ 31 opening braces the lexer is back in the text of the template and accepts its end.
In the grammar the substitution goes on, and the source is no template at all. -/
theorem braces_beyond_the_count_end_a_substitution :
    let source := unclosedTemplate (2 ^ 31 - 1)
    (∃ token after, (Lexer.ofText source).next .division = (.ok token, after) ∧
      token.kind = .template ∧ after.rest = []) ∧
    ∀ stop, ¬ Code.IsPart source.bytes .template 0 stop := by
  intro source
  have hscan : Lexeme.template source = { length := 2 ^ 31 - 1 + 4 } :=
    Lexeme.template_unclosed (by omega)
  have hpeek : (Lexer.ofText source).peek .division = (.template, Lexeme.template source) := rfl
  have hlength : source.length = 2 ^ 31 - 1 + 4 := length_unclosedTemplate _
  have hfault : (Lexeme.template source).fault = none := by rw [hscan]
  refine ⟨⟨_, _, Lexer.next_of_fault_none hpeek hfault, rfl, ?_⟩, Code.not_isPart_unclosed _⟩
  show source.drop (Lexeme.template source).length = []
  rw [hscan]
  exact List.drop_eq_nil_of_le (Nat.le_of_eq hlength)

end ScriptMinifier
