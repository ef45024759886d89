-- The tracker against the grammar. The tracker never sees a phrase, only one class after the
-- other, and still it reads every slash as the grammar says and leaves its stack as it was.
import ScriptMinifier.Proofs.Grammar

namespace ScriptMinifier

open Reading

/-! ## Runs of the tracker -/

namespace Tracker

/-- The tracker meets each token of the phrase with its slash read as the phrase says, and ends
up at the last tracker. -/
inductive Leads : Tracker → List Reading → Tracker → Prop
  | nil {tracker} : Leads tracker [] tracker
  | cons {tracker last reading rest} : tracker.slash = reading.slash →
      Leads (tracker.advance reading.tokenClass) rest last → Leads tracker (reading :: rest) last

namespace Leads

variable {place : Place} {stack : List Frame} {reading : Reading} {rest : List Reading}
  {last : Tracker}

theorem append {first middle : Tracker} {a b : List Reading} (ha : Leads first a middle)
    (hb : Leads middle b last) : Leads first (a ++ b) last := by
  induction ha with
  | nil => exact hb
  | cons hs _ ih => exact .cons hs (ih hb)

theorem inert {next : Place} (hs : place.slash = reading.slash)
    (hn : place.next reading.tokenClass = next) (hr : place.resume? reading.tokenClass = none)
    (hc : place.closes reading.tokenClass = false) (h : Leads ⟨next, stack⟩ rest last) :
    Leads ⟨place, stack⟩ (reading :: rest) last := by
  refine .cons hs ?_
  rw [advance_of_inert stack hr hc, hn]
  exact h

theorem opens {next resume : Place} (hs : place.slash = reading.slash)
    (hn : place.next reading.tokenClass = next)
    (hr : place.resume? reading.tokenClass = some resume)
    (hc : place.closes reading.tokenClass = false) (hroom : stack.length < depthLimit)
    (h : Leads ⟨next, ⟨.opened reading.tokenClass next, resume⟩ :: stack⟩ rest last) :
    Leads ⟨place, stack⟩ (reading :: rest) last := by
  refine .cons hs ?_
  rw [advance_of_opens hr hc hroom, hn]
  exact h

theorem closes {frame : Frame} (hs : place.slash = reading.slash)
    (hr : place.resume? reading.tokenClass = none)
    (hc : place.closes reading.tokenClass = true) (h : Leads ⟨frame.resume, stack⟩ rest last) :
    Leads ⟨place, frame :: stack⟩ (reading :: rest) last := by
  refine .cons hs ?_
  rw [advance_of_closes frame stack hr hc]
  exact h

end Leads

end Tracker

/-! ## Where an expression can start -/

namespace Place

/-- The place waits for an expression of the scope, and the phrase can be one there. -/
inductive Awaits : Scope → List Reading → Place → Prop
  | operand {k phrase} : Awaits k phrase (.expression k .operand)
  | arrow {k phrase} : startsWith .braceOpen phrase = false →
      Awaits k phrase (.expression k .arrow)
  | restricted {phrase} : Awaits .plain phrase .restricted
  | statement {phrase} : startsStatement phrase = true → Awaits .plain phrase .statement

namespace Awaits

variable {scope : Scope} {rest : List Reading} {place : Place}

/-- Only the first token of a phrase counts. -/
theorem of_append {a b : List Reading} (ha : a ≠ []) (h : Awaits scope (a ++ b) place) :
    Awaits scope a place := by
  obtain ⟨reading, rest, rfl⟩ := List.exists_cons_of_ne_nil ha
  cases h with
  | operand => exact .operand
  | arrow hb => exact .arrow hb
  | restricted => exact .restricted
  | statement hs => exact .statement hs

theorem slash (h : Awaits scope rest place) : place.slash = .regex := by
  cases h <;> rfl

theorem literal (h : Awaits scope rest place) :
    place.next .literal = .expression scope .operator ∧ place.resume? .literal = none ∧
      place.closes .literal = false := by
  cases h with
  | operand => cases scope <;> decide
  | arrow => cases scope <;> decide
  | restricted => decide
  | statement => decide

theorem parenOpen (h : Awaits scope rest place) :
    place.next .parenOpen = .expression .group .operand ∧
      place.resume? .parenOpen = some (.expression scope .operator) ∧
      place.closes .parenOpen = false := by
  cases h with
  | operand => cases scope <;> decide
  | arrow => cases scope <;> decide
  | restricted => decide
  | statement => decide

/-- A brace where an expression is due opens an object literal. -/
theorem braceOpen (h : Awaits scope (fresh .braceOpen :: rest) place) :
    place.next .braceOpen = .key ∧
      place.resume? .braceOpen = some (.expression scope .operator) ∧
      place.closes .braceOpen = false := by
  cases h with
  | operand => cases scope <;> decide
  | arrow hb => simp [startsWith, fresh] at hb
  | restricted => decide
  | statement hs => simp [startsStatement, startsWith, fresh] at hs

theorem function (h : Awaits scope (fresh .function :: rest) place) :
    place.next .function = .expression scope .function ∧ place.resume? .function = none ∧
      place.closes .function = false := by
  cases h with
  | operand => cases scope <;> decide
  | arrow => cases scope <;> decide
  | restricted => decide
  | statement hs => simp [startsStatement, startsWith, fresh] at hs

/-- Behind an operator that stands before its operand, an expression is still due. -/
theorem prefixed {c : TokenClass} (next : List Reading) (h : Awaits scope rest place)
    (hc : isPrefixClass c = true) :
    Awaits scope next (place.next c) ∧ place.resume? c = none ∧ place.closes c = false := by
  have hcases : c = .unary ∨ c = .increment ∨ c = .additive := by
    simpa [isPrefixClass] using hc
  cases h with
  | operand => rcases hcases with rfl | rfl | rfl <;> exact ⟨.operand, by cases scope <;> decide⟩
  | arrow => rcases hcases with rfl | rfl | rfl <;> exact ⟨.operand, by cases scope <;> decide⟩
  | restricted => rcases hcases with rfl | rfl | rfl <;> exact ⟨.restricted, by decide⟩
  | statement => rcases hcases with rfl | rfl | rfl <;> exact ⟨.operand, by decide⟩

end Awaits

end Place

/-! ## What a phrase does to the tracker -/

/-- The phrase leads from one place to the other and leaves the stack as it was, wherever there
is room for what it opens. -/
def Returns (room : Nat) (first last : Place) (phrase : List Reading) : Prop :=
  ∀ stack : List Frame, stack.length + room ≤ Tracker.depthLimit →
    Tracker.Leads ⟨first, stack⟩ phrase ⟨last, stack⟩

/-- The phrase closes what was opened last and leaves everything below it as it was. -/
def Closes (room : Nat) (first : Place) (phrase : List Reading) : Prop :=
  ∀ (frame : Frame) (stack : List Frame), stack.length + 1 + room ≤ Tracker.depthLimit →
    Tracker.Leads ⟨first, frame :: stack⟩ phrase ⟨frame.resume, stack⟩

/-- The phrase is an operand for the tracker, wherever one is due. -/
structure IsOperand (room : Nat) (scope : Scope) (phrase : List Reading) : Prop where
  ne_nil : phrase ≠ []
  returns : ∀ place, place.Awaits scope phrase →
    Returns room place (.expression scope .operator) phrase

section Parts

variable {room : Nat} {first middle last : Place} {a b : List Reading} {reading : Reading}

theorem Returns.nil : Returns room first first [] := fun _ _ => .nil

theorem Returns.append (ha : Returns room first middle a) (hb : Returns room middle last b) :
    Returns room first last (a ++ b) :=
  fun stack h => (ha stack h).append (hb stack h)

theorem Returns.inert (hs : first.slash = reading.slash)
    (hn : first.next reading.tokenClass = middle) (hr : first.resume? reading.tokenClass = none)
    (hc : first.closes reading.tokenClass = false) (h : Returns room middle last a) :
    Returns room first last (reading :: a) :=
  fun stack hroom => .inert hs hn hr hc (h stack hroom)

/-- A token that opens something, up to where that is closed. -/
theorem Returns.enclosed (hs : first.slash = reading.slash)
    (hn : first.next reading.tokenClass = middle)
    (hr : first.resume? reading.tokenClass = some last)
    (hc : first.closes reading.tokenClass = false) (h : Closes room middle a) :
    Returns (room + 1) first last (reading :: a) := by
  intro stack hroom
  exact .opens hs hn hr hc (by omega) (h _ stack (by omega))

/-- Up to its body a `function` stays where it is, so its parentheses open nothing. -/
theorem Returns.ofFunction {scope : Scope} {c : TokenClass} (hc : c ≠ .braceOpen)
    (h : Returns room (.expression scope .function) last a) :
    Returns room (.expression scope .function) last (fresh c :: a) := by
  refine .inert rfl ?_ ?_ ?_ h
  all_goals cases scope <;> cases c <;> first | rfl | contradiction

theorem Closes.append (ha : Returns room first middle a) (hb : Closes room middle b) :
    Closes room first (a ++ b) :=
  fun frame stack h => (ha (frame :: stack) h).append (hb frame stack h)

theorem Closes.inert (hs : first.slash = reading.slash)
    (hn : first.next reading.tokenClass = middle) (hr : first.resume? reading.tokenClass = none)
    (hc : first.closes reading.tokenClass = false) (h : Closes room middle a) :
    Closes room first (reading :: a) :=
  fun frame stack hroom => .inert hs hn hr hc (h frame stack hroom)

theorem Closes.single (hs : first.slash = reading.slash)
    (hr : first.resume? reading.tokenClass = none)
    (hc : first.closes reading.tokenClass = true) : Closes room first [reading] :=
  fun _ _ _ => .closes hs hr hc .nil

end Parts

/-! ## Operands -/

namespace IsOperand

variable {room : Nat} {scope : Scope} {a b e : List Reading}

theorem literal : IsOperand room scope [fresh .literal] := by
  refine ⟨by simp, fun place h => ?_⟩
  obtain ⟨hn, hr, hc⟩ := h.literal
  exact .inert h.slash hn hr hc .nil

theorem prefixed {c : TokenClass} (hc : isPrefixClass c = true) (h : IsOperand room scope e) :
    IsOperand room scope (fresh c :: e) := by
  refine ⟨by simp, fun place hp => ?_⟩
  obtain ⟨hn, hr, hclose⟩ := hp.prefixed e hc
  exact .inert hp.slash rfl hr hclose (h.returns _ hn)

/-- What comes behind an operand and is one again with it. -/
theorem continued (h : IsOperand room scope a)
    (hb : Returns room (.expression scope .operator) (.expression scope .operator) b) :
    IsOperand room scope (a ++ b) := by
  refine ⟨by simp [h.ne_nil], fun place hp => ?_⟩
  exact (h.returns place (hp.of_append h.ne_nil)).append hb

theorem postfixed (h : IsOperand room scope e) :
    IsOperand room scope (e ++ [behind .increment]) := by
  refine h.continued (.inert rfl ?_ ?_ ?_ .nil)
  all_goals cases scope <;> rfl

/-- A token that makes an operand wait for another one. -/
theorem joined {c : TokenClass} (ha : IsOperand room scope a) (hb : IsOperand room scope b)
    (hn : Place.next (.expression scope .operator) c = .expression scope .operand)
    (hr : Place.resume? (.expression scope .operator) c = none)
    (hc : Place.closes (.expression scope .operator) c = false) :
    IsOperand room scope (a ++ behind c :: b) :=
  ha.continued (.inert rfl hn hr hc (hb.returns _ .operand))

theorem infixed {c : TokenClass} (hc : isInfixClass c = true) (ha : IsOperand room scope a)
    (hb : IsOperand room scope b) : IsOperand room scope (a ++ behind c :: b) := by
  have hcases : c = .binary ∨ c = .additive := by
    simpa [isInfixClass] using hc
  rcases hcases with rfl | rfl
  · apply ha.joined hb <;> cases scope <;> rfl
  · apply ha.joined hb <;> cases scope <;> rfl

theorem sequence (hk : scope ≠ .property) (ha : IsOperand room scope a)
    (hb : IsOperand room scope b) : IsOperand room scope (a ++ behind .comma :: b) := by
  apply ha.joined hb <;> cases scope <;> first | rfl | contradiction

theorem group (h : Closes room (.expression .group .operand) a) :
    IsOperand (room + 1) scope (fresh .parenOpen :: a) := by
  refine ⟨by simp, fun place hp => ?_⟩
  obtain ⟨hn, hr, hc⟩ := hp.parenOpen
  exact .enclosed hp.slash hn hr hc h

theorem call (he : IsOperand (room + 1) scope e) (h : Closes room (.expression .group .operand) a) :
    IsOperand (room + 1) scope (e ++ behind .parenOpen :: a) := by
  refine he.continued (.enclosed rfl ?_ ?_ ?_ h)
  all_goals cases scope <;> rfl

theorem object (h : Closes room .key a) : IsOperand (room + 1) scope (fresh .braceOpen :: a) := by
  refine ⟨by simp, fun place hp => ?_⟩
  obtain ⟨hn, hr, hc⟩ := hp.braceOpen
  exact .enclosed hp.slash hn hr hc h

theorem function {head : List Reading}
    (hh : Returns (room + 1) (.expression scope .function) (.expression scope .function) head)
    (hb : Closes room .statement b) :
    IsOperand (room + 1) scope (fresh .function :: (head ++ fresh .braceOpen :: b)) := by
  refine ⟨by simp, fun place hp => ?_⟩
  obtain ⟨hn, hr, hc⟩ := hp.function
  refine .inert hp.slash hn hr hc (hh.append (.enclosed rfl ?_ ?_ ?_ hb))
  all_goals cases scope <;> rfl

theorem arrow (ha : IsOperand room scope a) (he : IsOperand room scope e)
    (hbrace : startsWith .braceOpen e = false) :
    IsOperand room scope (a ++ behind .arrow :: e) := by
  refine ha.continued (.inert rfl ?_ ?_ ?_ (he.returns _ (.arrow hbrace)))
  all_goals cases scope <;> rfl

theorem arrowBody (ha : IsOperand (room + 1) scope a) (hb : Closes room .statement b) :
    IsOperand (room + 1) scope (a ++ behind .arrow :: fresh .braceOpen :: b) := by
  have hbody : Returns (room + 1) (.expression scope .arrow) (.expression scope .operator)
      (fresh .braceOpen :: b) := by
    refine .enclosed rfl ?_ ?_ ?_ hb
    all_goals cases scope <;> rfl
  refine ha.continued (.inert rfl ?_ ?_ ?_ hbody)
  all_goals cases scope <;> rfl

/-- The question mark opens the first half, which its colon closes. -/
theorem conditional (hk : scope = .plain ∨ scope = .conditional)
    (he : IsOperand (room + 1) scope e) (ha : IsOperand room .conditional a)
    (hb : IsOperand (room + 1) scope b) :
    IsOperand (room + 1) scope (e ++ behind .question :: (a ++ behind .colon :: b)) := by
  have hhalf : Closes room (.expression .conditional .operand) (a ++ [behind .colon]) :=
    .append (ha.returns _ .operand) (.single rfl rfl rfl)
  have hopened : Returns (room + 1) (.expression scope .operator) (.expression scope .operand)
      (behind .question :: (a ++ [behind .colon])) := by
    refine .enclosed rfl ?_ ?_ ?_ hhalf
    all_goals rcases hk with rfl | rfl <;> rfl
  have := he.continued (hopened.append (hb.returns _ .operand))
  simpa using this

/-- In a group the colon of a conditional closes nothing. -/
theorem groupConditional (he : IsOperand room .group e) (ha : IsOperand room .group a)
    (hb : IsOperand room .group b) :
    IsOperand room .group (e ++ behind .question :: (a ++ behind .colon :: b)) :=
  he.joined (ha.joined hb rfl rfl rfl) rfl rfl rfl

end IsOperand

/-! ## Every phrase -/

/-- The place behind a member of an object literal that has ended where a slash is read like
this. Behind a value a slash divides, and behind the body of a method it does not. -/
def placeAfterMember : Slash → Place
  | .division => .expression .property .operator
  | .regex => .key

/-- What a phrase of the category does to the tracker. -/
def Category.Sound (room : Nat) (phrase : List Reading) : Category → Prop
  | .expression scope | .arrowHead scope => IsOperand room scope phrase
  | .arguments | .clauseHead => Closes room (.expression .group .operand) phrase
  | .parameters => ∀ room' scope,
      Returns room' (.expression scope .function) (.expression scope .function) phrase
  | .key => Returns room .key .key phrase
  | .members => Closes room .key phrase
  | .membersAfter slash => Closes room (placeAfterMember slash) phrase
  | .statement | .program => Returns room .statement .statement phrase
  | .body => Closes room .statement phrase

/-- One case for each rule of the grammar. -/
theorem Phrase.sound {room : Nat} {category : Category} {phrase : List Reading}
    (h : Phrase room category phrase) : category.Sound room phrase := by
  induction h with
  | literal => exact .literal
  | prefixed hc _ ih => exact .prefixed hc ih
  | postfixed _ ih => exact .postfixed ih
  | infixed hc _ _ iha ihb => exact .infixed hc iha ihb
  | sequence hk _ _ iha ihb => exact .sequence hk iha ihb
  | group _ ih => exact .group ih
  | call _ _ ihe iha => exact .call ihe iha
  | object _ ih => exact .object ih
  | @function n k p b _ _ ihp ihb =>
    have hhead : Returns (n + 1) (.expression k .function) (.expression k .function)
        (fresh .parenOpen :: (p ++ [fresh .parenClose])) :=
      .ofFunction (by decide) ((ihp _ k).append (.ofFunction (by decide) .nil))
    have := IsOperand.function hhead ihb
    simpa [Category.Sound] using this
  | @namedFunction n k p b _ _ ihp ihb =>
    have hhead : Returns (n + 1) (.expression k .function) (.expression k .function)
        (fresh .literal :: fresh .parenOpen :: (p ++ [fresh .parenClose])) :=
      .ofFunction (by decide) (.ofFunction (by decide)
        ((ihp _ k).append (.ofFunction (by decide) .nil)))
    have := IsOperand.function hhead ihb
    simpa [Category.Sound] using this
  | arrow _ _ hbrace ihh ihe => exact .arrow ihh ihe hbrace
  | arrowBody _ _ ihh ihb => exact .arrowBody ihh ihb
  | conditional hk _ _ _ ihe iha ihb => exact .conditional hk ihe iha ihb
  | groupConditional _ _ _ ihe iha ihb => exact .groupConditional ihe iha ihb
  | literalHead => exact .literal
  | groupHead _ ih => exact .group ih
  | noArguments => exact .single rfl rfl rfl
  | arguments _ ih => exact .append (ih.returns _ .operand) (.single rfl rfl rfl)
  | noParameters => exact fun _ _ => .nil
  | lastParameter => exact fun _ _ => .ofFunction (by decide) .nil
  | parameter _ ih => exact fun _ k => .ofFunction (by decide) (.ofFunction (by decide) (ih _ k))
  | nameKey => exact .inert rfl rfl rfl rfl .nil
  | computedKey _ ih =>
    exact .enclosed rfl rfl rfl rfl (.append (ih.returns _ .operand) (.single rfl rfl rfl))
  | noMembers => exact .single rfl rfl rfl
  | property _ _ _ ihk ihe ihm =>
    exact .append ihk (.inert rfl rfl rfl rfl (.append (ihe.returns _ .operand) ihm))
  | @method n a b m _ _ _ iha ihb ihm =>
    have hparameters : Returns (n + 1) .key .key (fresh .parenOpen :: a) :=
      .enclosed rfl rfl rfl rfl iha
    have hbody : Returns (n + 1) .key .key (fresh .braceOpen :: b) := .enclosed rfl rfl rfl rfl ihb
    exact .inert rfl rfl rfl rfl (.append hparameters (.append hbody ihm))
  | @endOfMembers n s => cases s <;> exact .single rfl rfl rfl
  | @nextMember n s m _ ih => cases s <;> exact .inert rfl rfl rfl rfl ih
  | emptyStatement => exact .inert rfl rfl rfl rfl .nil
  | expressionStatement _ hs ih =>
    exact (ih.returns _ (.statement hs)).append (.inert rfl rfl rfl rfl .nil)
  | labelled _ hs _ ihe ihs =>
    exact (ihe.returns _ (.statement hs)).append (.inert rfl rfl rfl rfl ihs)
  | block _ ih => exact .enclosed rfl rfl rfl rfl ih
  | @clause n h s _ _ ihh ihs =>
    have hhead : Returns (n + 1) .header .statement (fresh .parenOpen :: h) :=
      .enclosed rfl rfl rfl rfl ihh
    exact .inert rfl rfl rfl rfl (hhead.append ihs)
  | opener _ ih => exact .inert rfl rfl rfl rfl ih
  | jump => exact .inert rfl rfl rfl rfl (.inert rfl rfl rfl rfl .nil)
  | jumpWith _ ih =>
    exact .inert rfl rfl rfl rfl
      ((ih.returns _ .restricted).append (.inert rfl rfl rfl rfl .nil))
  | @declaration n a b _ _ iha ihb =>
    have hparameters : Returns (n + 1) .header .statement (fresh .parenOpen :: a) :=
      .enclosed rfl rfl rfl rfl iha
    have hbody : Returns (n + 1) .statement .statement (fresh .braceOpen :: b) :=
      .enclosed rfl rfl rfl rfl ihb
    exact .inert rfl rfl rfl rfl (.inert rfl rfl rfl rfl (hparameters.append hbody))
  | plainHead _ ih => exact ih
  | skippedPart _ ih => exact .inert rfl rfl rfl rfl ih
  | headPart _ _ ihe ihh => exact .append (ihe.returns _ .operand) (.inert rfl rfl rfl rfl ihh)
  | noStatements => exact .nil
  | nextStatement _ _ ihs ihp => exact .append ihs ihp
  | closedBody _ ih => exact .append ih (.single rfl rfl rfl)
  | openBody _ _ hs ihp ihe =>
    exact .append ihp (.append (ihe.returns _ (.statement hs)) (.single rfl rfl rfl))
  | jumpBody _ ih => exact .append ih (.inert rfl rfl rfl rfl (.single rfl rfl rfl))
  | jumpWithBody _ _ ihp ihe =>
    exact .append ihp (.inert rfl rfl rfl rfl
      (.append (ihe.returns _ .restricted) (.single rfl rfl rfl)))

/-! ## Slashes -/

/-- What a slash stands for before each token, one after the other. -/
def Tracker.slashes : Tracker → List TokenClass → List Slash
  | _, [] => []
  | tracker, c :: rest => tracker.slash :: (tracker.advance c).slashes rest

theorem Tracker.Leads.run {first last : Tracker} {phrase : List Reading}
    (h : first.Leads phrase last) :
    (phrase.map Reading.tokenClass).foldl Tracker.advance first = last ∧
      first.slashes (phrase.map Reading.tokenClass) = phrase.map Reading.slash := by
  induction h with
  | nil => exact ⟨rfl, rfl⟩
  | cons hs _ ih => exact ⟨ih.1, by rw [List.map_cons, List.map_cons, slashes, hs, ih.2]⟩

/-! ## The laws -/

/-- An expression of any scope, met at any place that waits for it, leaves the tracker behind an
operand with the stack as it was. On the way every slash is read as the grammar says, so every
literal is met where a slash starts a regular expression and every binary operator where it
divides. A program leads from one statement to the next in the same way. -/
theorem every_slash_follows_the_grammar {room : Nat} {phrase : List Reading}
    {stack : List Frame} (hroom : stack.length + room ≤ Tracker.depthLimit) :
    (∀ scope, Phrase room (.expression scope) phrase → ∀ place, place.Awaits scope phrase →
      (phrase.map tokenClass).foldl Tracker.advance ⟨place, stack⟩ =
          ⟨.expression scope .operator, stack⟩ ∧
        Tracker.slashes ⟨place, stack⟩ (phrase.map tokenClass) = phrase.map slash ∧
        ∀ reading ∈ phrase, (reading.tokenClass = .literal → reading.slash = .regex) ∧
          (reading.tokenClass = .binary → reading.slash = .division)) ∧
    (Phrase room .program phrase →
      (phrase.map tokenClass).foldl Tracker.advance ⟨.statement, stack⟩ = ⟨.statement, stack⟩ ∧
        Tracker.slashes ⟨.statement, stack⟩ (phrase.map tokenClass) = phrase.map slash ∧
        ∀ reading ∈ phrase, (reading.tokenClass = .literal → reading.slash = .regex) ∧
          (reading.tokenClass = .binary → reading.slash = .division)) := by
  constructor
  · intro scope h place hplace
    have hoperand : IsOperand room scope phrase := h.sound
    obtain ⟨hlast, hslashes⟩ := (hoperand.returns place hplace stack hroom).run
    exact ⟨hlast, hslashes, h.slash_of_mem⟩
  · intro h
    have hreturns : Returns room .statement .statement phrase := h.sound
    obtain ⟨hlast, hslashes⟩ := (hreturns stack hroom).run
    exact ⟨hlast, hslashes, h.slash_of_mem⟩

/-- The expression `a?{m(){return b}}:(c=>d)/e`, below one open group. -/
theorem conditional_with_a_method_and_an_arrow_divides :
    Phrase 3 (.expression .plain)
        [fresh .literal, behind .question, fresh .braceOpen, fresh .literal, fresh .parenOpen,
          fresh .parenClose, fresh .braceOpen, fresh .jump, fresh .literal, behind .braceClose,
          fresh .braceClose, behind .colon, fresh .parenOpen, fresh .literal, behind .arrow,
          fresh .literal, behind .parenClose, behind .binary, fresh .literal] ∧
      [TokenClass.literal, .question, .braceOpen, .literal, .parenOpen, .parenClose, .braceOpen,
        .jump, .literal, .braceClose, .braceClose, .colon, .parenOpen, .literal, .arrow,
        .literal, .parenClose, .binary, .literal].foldl Tracker.advance
          ⟨.expression .plain .operand, [⟨.group, .expression .plain .operator⟩]⟩ =
        ⟨.expression .plain .operator, [⟨.group, .expression .plain .operator⟩]⟩ := by
  have hbody : Phrase 0 .body [fresh .jump, fresh .literal, behind .braceClose] :=
    .jumpWithBody .noStatements .literal
  have hmethod := Phrase.method .noArguments hbody .endOfMembers
  have harrow := Phrase.group (n := 2) (k := .plain)
    (.arguments (.arrow .literalHead .literal rfl))
  have hphrase := Phrase.conditional (.inl rfl) .literal (.object hmethod)
    (.infixed (c := .binary) rfl harrow .literal)
  have hroom : [(⟨.group, .expression .plain .operator⟩ : Frame)].length + 3 ≤
      Tracker.depthLimit := by decide
  exact ⟨hphrase,
    ((every_slash_follows_the_grammar hroom).1 .plain hphrase _ .operand).1⟩

end ScriptMinifier
