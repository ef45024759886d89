-- Brackets and the stack. A closing bracket should undo what its own opening bracket has done to
-- the stack. Each of the two is judged by the place where it stands, so this holds only if both
-- places agree. They do in the core of the language, and they do not around class bodies and
-- around braces between the parentheses of a function expression.
import ScriptMinifier.Proofs.Regions

namespace ScriptMinifier

/-! ## Nested brackets -/

inductive Bracket where
  | brace
  /-- Parentheses and square brackets. -/
  | paren
deriving DecidableEq, Repr

namespace Bracket

def opener : Bracket → TokenClass
  | brace => .braceOpen
  | paren => .parenOpen

def closer : Bracket → TokenClass
  | brace => .braceClose
  | paren => .parenClose

end Bracket

/-- What a class does to the nesting of brackets. -/
inductive TokenClass.Role where
  | opens (bracket : Bracket)
  | closes (bracket : Bracket)
  | question
  | other
deriving DecidableEq, Repr

def TokenClass.role : TokenClass → Role
  | .braceOpen => .opens .brace
  | .parenOpen => .opens .paren
  | .braceClose => .closes .brace
  | .parenClose => .closes .paren
  | .question => .question
  | _ => .other

theorem TokenClass.eq_opener_of_role {c : TokenClass} {bracket : Bracket}
    (h : c.role = .opens bracket) : c = bracket.opener := by
  cases c <;> cases h <;> rfl

theorem TokenClass.eq_closer_of_role {c : TokenClass} {bracket : Bracket}
    (h : c.role = .closes bracket) : c = bracket.closer := by
  cases c <;> cases h <;> rfl

/-- Every closing bracket belongs to the last one that is open, no more than `limit` are open at
once, and there is no question mark. The brackets of `outer` are open already. -/
def nestedWithin (limit : Nat) (outer : List Bracket) : List TokenClass → Bool
  | [] => true
  | c :: rest =>
    match c.role, outer with
    | .opens bracket, _ =>
      decide (outer.length < limit) && nestedWithin limit (bracket :: outer) rest
    | .closes bracket, last :: outer => bracket == last && nestedWithin limit outer rest
    | .closes _, [] => false
    | .question, _ => false
    | .other, _ => nestedWithin limit outer rest

/-- A bracket with the trackers right before its opening and its closing token. -/
structure BracketPair where
  bracket : Bracket
  opening : Tracker
  closing : Tracker
deriving DecidableEq, Repr

namespace BracketPair

/-- The tracker right behind the closing token. -/
def behind (pair : BracketPair) : Tracker := pair.closing.advance pair.bracket.closer

/-- The closing token leaves the stack that the opening token has met. -/
def Restores (pair : BracketPair) : Prop := pair.behind.stack = pair.opening.stack

instance : DecidablePred Restores := fun pair =>
  inferInstanceAs (Decidable (pair.behind.stack = pair.opening.stack))

end BracketPair

/-- The pairs of brackets that are closed on the way over the classes, in the order of their
closing tokens. Those of `outer` are open already. -/
def Tracker.pairs (tracker : Tracker) (outer : List (Bracket × Tracker)) :
    List TokenClass → List BracketPair
  | [] => []
  | c :: rest =>
    match c.role, outer with
    | .opens bracket, _ => (tracker.advance c).pairs ((bracket, tracker) :: outer) rest
    | .closes _, (bracket, opening) :: outer =>
      ⟨bracket, opening, tracker⟩ :: (tracker.advance c).pairs outer rest
    | _, _ => (tracker.advance c).pairs outer rest

/-! ## What the places say -/

namespace Place

/-- The head of a statement or of a function expression is being read. -/
def isHead : Place → Bool
  | .header | .expression _ .function => true
  | _ => false

/-- A brace opens nothing in the head of a statement and right behind an operand, and a
parenthesis opens nothing in the head of a function expression. -/
def opens : Place → Bracket → Bool
  | place, .brace => place != .header && !place.isDivision
  | .expression _ .function, .paren => false
  | _, .paren => true

theorem isSome_resume?_opener (place : Place) (bracket : Bracket) :
    (place.resume? bracket.opener).isSome = place.opens bracket := by
  revert place
  cases bracket <;> decide +kernel

/-- A closing bracket closes what is open around it, unless it stands in a head. -/
theorem closes_closer (place : Place) (bracket : Bracket) :
    place.closes bracket.closer = (place.region.closer == bracket.closer && !place.isHead) := by
  revert place
  cases bracket <;> decide +kernel

end Place

/-- What the places of both brackets have to say for the pair to leave the stack as it was. If the
first has opened something, the second must not stand in a head. If not, it must not close what is
open around both. -/
def BracketPair.Answers (pair : BracketPair) : Prop :=
  if pair.opening.place.opens pair.bracket then pair.closing.place.isHead = false
  else pair.closing.stack = [] ∨ pair.closing.place.isHead = true ∨
    pair.closing.place.region.closer ≠ pair.bracket.closer

instance : DecidablePred BracketPair.Answers := fun pair =>
  inferInstanceAs (Decidable (if pair.opening.place.opens pair.bracket then
    pair.closing.place.isHead = false else _ ∨ _ ∨ _))

/-! ## One bracket -/

/-- What a bracket opens is closed by the other bracket of its pair. -/
theorem Bracket.closer_opened (bracket : Bracket) (next : Place) :
    (Enclosure.opened bracket.opener next).closer = bracket.closer := by
  cases bracket <;> cases next <;> rfl

namespace Tracker

/-- An opening bracket that opens something puts one frame on the stack, which its own closing
bracket would take off. -/
theorem stack_advance_opener {tracker : Tracker} {bracket : Bracket}
    (hopens : tracker.place.opens bracket = true) (hroom : tracker.stack.length < depthLimit) :
    ∃ frame, (tracker.advance bracket.opener).stack = frame :: tracker.stack ∧
      frame.enclosure.closer = bracket.closer := by
  rw [← Place.isSome_resume?_opener] at hopens
  obtain ⟨resume, hr⟩ := Option.isSome_iff_exists.1 hopens
  have hcloses := (Place.opens_of_resume? hr).closes
  refine ⟨⟨.opened bracket.opener (tracker.place.next bracket.opener), resume⟩, ?_, ?_⟩
  · rw [advance_of_opens hr hcloses hroom]
  · exact bracket.closer_opened _

theorem stack_advance_opener_of_not_opens {tracker : Tracker} {bracket : Bracket}
    (hopens : tracker.place.opens bracket = false) :
    (tracker.advance bracket.opener).stack = tracker.stack := by
  rw [← Place.isSome_resume?_opener, Option.isSome_eq_false_iff, Option.isNone_iff_eq_none]
    at hopens
  have hcloses : tracker.place.closes bracket.opener = false := by
    cases hc : tracker.place.closes bracket.opener with
    | false => rfl
    | true =>
      have := (Place.eq_closer_of_closes hc).1
      cases bracket <;> cases hr : tracker.place.region <;> rw [hr] at this <;> cases this
  rw [advance_of_inert _ hopens hcloses]

theorem resume?_closer (place : Place) (bracket : Bracket) :
    place.resume? bracket.closer = none := by
  cases hr : place.resume? bracket.closer with
  | none => rfl
  | some resume =>
    have hopener := (Place.opens_of_resume? hr).opener
    cases bracket <;> simp [Bracket.closer] at hopener

/-- A closing bracket takes off at most one frame. -/
theorem stack_advance_closer (tracker : Tracker) (bracket : Bracket) :
    (tracker.advance bracket.closer).stack =
      if tracker.place.closes bracket.closer then tracker.stack.tail else tracker.stack := by
  have hr := resume?_closer tracker.place bracket
  obtain ⟨place, stack⟩ := tracker
  cases hc : place.closes bracket.closer with
  | false => rw [advance_of_inert stack hr hc]; rfl
  | true =>
    cases stack with
    | nil => simp [advance, opened, hr, hc]
    | cons frame below => rw [advance_of_closes frame below hr hc]; rfl

/-! ## Runs without a question mark -/

/-- The tracker stands in the region of what is open innermost, and no conditional is open. -/
structure Steady (tracker : Tracker) : Prop where
  placed : tracker.Placed
  unconditional : ∀ frame ∈ tracker.stack, frame.enclosure ≠ .conditional

namespace Steady

variable {tracker : Tracker} {c : TokenClass}

theorem start : Steady .start := by
  refine ⟨.start, ?_⟩
  intro frame hmem
  cases hmem

theorem region_ne_conditional (h : tracker.Steady) : tracker.place.region ≠ .conditional := by
  obtain ⟨place, stack⟩ := tracker
  have hfits := h.placed.fits
  cases stack with
  | nil =>
    rw [show place.region = .block from hfits]
    decide
  | cons frame below =>
    rw [show place.region = frame.enclosure from hfits.1]
    exact h.unconditional frame List.mem_cons_self

theorem advance (h : tracker.Steady) (hc : c ≠ .question) (hroom : tracker.HasRoomFor c) :
    (tracker.advance c).Steady := by
  refine ⟨h.placed.advance hroom, ?_⟩
  rcases advance_cases tracker c hroom with ⟨resume, hr, heq⟩ | ⟨frame, below, _, hstack, heq⟩ |
    ⟨_, _, heq⟩
  · rw [heq]
    intro frame hmem
    rcases List.mem_cons.1 hmem with rfl | hmem
    · -- Only a question mark opens a conditional.
      intro hconditional
      have hcloser := congrArg Enclosure.closer hconditional
      rcases (Place.opens_of_resume? hr).opener with rfl | rfl | rfl
      · cases hcloser.symm.trans (Bracket.closer_opened .brace (tracker.place.next .braceOpen))
      · cases hcloser.symm.trans (Bracket.closer_opened .paren (tracker.place.next .parenOpen))
      · exact absurd rfl hc
    · exact h.unconditional frame hmem
  · rw [heq]
    intro other hmem
    apply h.unconditional
    rw [hstack]
    exact List.mem_cons_of_mem _ hmem
  · rw [heq]
    exact h.unconditional

/-- A token that is neither a bracket nor a question mark leaves the stack alone. Only a colon
could close something, and no conditional is open. -/
theorem advance_other (h : tracker.Steady) (hrole : c.role = .other) :
    (tracker.advance c).stack = tracker.stack ∧ (tracker.advance c).Steady := by
  have hr : tracker.place.resume? c = none := by
    cases hr : tracker.place.resume? c with
    | none => rfl
    | some resume =>
      rcases (Place.opens_of_resume? hr).opener with rfl | rfl | rfl <;> cases hrole
  have hc : tracker.place.closes c = false := by
    cases hc : tracker.place.closes c with
    | false => rfl
    | true =>
      have hcloser := (Place.eq_closer_of_closes hc).1
      have hregion := h.region_ne_conditional
      cases hr : tracker.place.region with
      | conditional => exact absurd hr hregion
      | _ => rw [hcloser, hr] at hrole; cases hrole
  constructor
  · rw [advance_of_inert _ hr hc]
  · apply h.advance
    · rintro rfl
      cases hrole
    · intro hopens
      exact absurd hr hopens

end Steady

/-- The stack is the one that the last open bracket has left, and so for each bracket around
it. All of them had room on the stack. -/
def Level : (stack : List Frame) → (outer : List (Bracket × Tracker)) → Prop
  | stack, [] => stack = []
  | stack, (bracket, opening) :: outer =>
    stack = (opening.advance bracket.opener).stack ∧ opening.stack.length < depthLimit ∧
      Level opening.stack outer

theorem length_stack_advance_le (tracker : Tracker) (c : TokenClass) :
    (tracker.advance c).stack.length ≤ tracker.stack.length + 1 := by
  have hopened : (tracker.opened c).length ≤ tracker.stack.length + 1 := by
    unfold opened
    split
    · split
      · exact Nat.le_refl _
      · exact Nat.le_succ _
    · exact Nat.le_succ _
  unfold advance
  split
  · next frame stack _ hstack =>
    rw [hstack, List.length_cons] at hopened
    exact Nat.le_of_succ_le hopened
  · exact hopened

/-- No more is on the stack than brackets are open. -/
theorem Level.length_le {stack : List Frame} {outer : List (Bracket × Tracker)}
    (h : Level stack outer) : stack.length ≤ outer.length := by
  induction outer generalizing stack with
  | nil =>
    rw [show stack = [] from h]
    exact Nat.le_refl _
  | cons entry outer ih =>
    obtain ⟨bracket, opening⟩ := entry
    obtain ⟨rfl, _, houter⟩ := h
    have hlength := ih houter
    have hadvance := opening.length_stack_advance_le bracket.opener
    rw [List.length_cons]
    omega

end Tracker

/-! ## One pair -/

/-- If nothing has happened to the stack between the two brackets, their places decide whether
the pair leaves the stack as it was. -/
theorem BracketPair.restores_iff_answers {pair : BracketPair}
    (hopening : pair.opening.stack.length < Tracker.depthLimit) (hclosing : pair.closing.Steady)
    (hstack : pair.closing.stack = (pair.opening.advance pair.bracket.opener).stack) :
    pair.Restores ↔ pair.Answers := by
  obtain ⟨bracket, opening, closing⟩ := pair
  dsimp only at hopening hclosing hstack
  unfold Restores Answers behind
  dsimp only
  rw [Tracker.stack_advance_closer, Place.closes_closer]
  cases hopens : opening.place.opens bracket with
  | true =>
    obtain ⟨frame, hframe, hcloser⟩ := Tracker.stack_advance_opener hopens hopening
    rw [hframe] at hstack
    have hregion : closing.place.region = frame.enclosure := by
      have hfits := hclosing.placed.fits
      rw [hstack] at hfits
      exact hfits.1
    cases hhead : closing.place.isHead
    · simp [hregion, hcloser, hstack]
    · simp [hstack]
  | false =>
    rw [Tracker.stack_advance_opener_of_not_opens hopens] at hstack
    rw [← hstack]
    cases hhead : closing.place.isHead
    · by_cases hcloser : closing.place.region.closer = bracket.closer
      · cases hempty : closing.stack <;> simp [hcloser]
      · simp [hcloser]
    · simp

/-! ## Whole runs -/

namespace Tracker

/-- The brackets of a nested sequence all leave the stack as it was if their places allow it, and
only then. The induction goes over the classes. As long as every pair so far has restored the
stack, it is level with the brackets that are open. -/
theorem pairs_restore_iff {classes : List TokenClass} {tracker : Tracker}
    {outer : List (Bracket × Tracker)} (hsteady : tracker.Steady)
    (hlevel : Level tracker.stack outer)
    (hnested : nestedWithin depthLimit (outer.map Prod.fst) classes = true) :
    (∀ pair ∈ tracker.pairs outer classes, pair.Restores) ↔
      ∀ pair ∈ tracker.pairs outer classes, pair.Answers := by
  induction classes generalizing tracker outer with
  | nil => simp [pairs]
  | cons c rest ih =>
    unfold nestedWithin at hnested
    unfold pairs
    cases hrole : c.role with
    | opens bracket =>
      obtain rfl := TokenClass.eq_opener_of_role hrole
      simp only [hrole, Bool.and_eq_true, decide_eq_true_eq, List.length_map] at hnested
      have hroom : tracker.stack.length < depthLimit :=
        Nat.lt_of_le_of_lt hlevel.length_le hnested.1
      apply ih
      · exact hsteady.advance (by cases bracket <;> decide) fun _ => hroom
      · exact ⟨rfl, hroom, hlevel⟩
      · exact hnested.2
    | closes bracket =>
      obtain rfl := TokenClass.eq_closer_of_role hrole
      cases outer with
      | nil => simp [hrole] at hnested
      | cons entry outer =>
        obtain ⟨last, opening⟩ := entry
        simp only [hrole, List.map_cons, Bool.and_eq_true, beq_iff_eq] at hnested
        obtain ⟨rfl, hnested⟩ := hnested
        obtain ⟨hstack, hroom, houter⟩ := hlevel
        have hpair : BracketPair.Restores ⟨bracket, opening, tracker⟩ ↔ _ :=
          BracketPair.restores_iff_answers hroom hsteady hstack
        dsimp only
        rw [List.forall_mem_cons, List.forall_mem_cons, hpair]
        apply and_congr_right
        intro hanswers
        apply ih
        · apply hsteady.advance
          · cases bracket <;> decide
          · intro hopens
            exact absurd (resume?_closer _ _) hopens
        · rw [show (tracker.advance bracket.closer).stack = opening.stack from hpair.2 hanswers]
          exact houter
        · exact hnested
    | question => simp [hrole] at hnested
    | other =>
      simp only [hrole] at hnested
      obtain ⟨hstack, hnext⟩ := hsteady.advance_other hrole
      apply ih hnext
      · rw [hstack]
        exact hlevel
      · exact hnested

end Tracker

/-! ## The law -/

/-- In a sequence of classes with nested brackets, no deeper than the stack goes and without a
question mark, every closing bracket leaves the stack that its opening bracket has met if and
only if the places of each pair allow it: a bracket that has opened something is not closed in a
head, and one that has opened nothing does not close what is open around it. -/
theorem closers_undo_their_openers_iff (classes : List TokenClass)
    (hnested : nestedWithin Tracker.depthLimit [] classes = true) :
    (∀ pair ∈ Tracker.start.pairs [] classes, pair.Restores) ↔
      ∀ pair ∈ Tracker.start.pairs [] classes, pair.Answers :=
  Tracker.pairs_restore_iff .start rfl hnested

/-- In `if(a){b=function(c){d[e]}}` every bracket undoes its own. -/
theorem brackets_of_a_function_undo_each_other :
    nestedWithin Tracker.depthLimit [] [.clause, .parenOpen, .literal, .parenClose, .braceOpen,
        .literal, .binary, .function, .parenOpen, .literal, .parenClose, .braceOpen, .literal,
        .parenOpen, .literal, .parenClose, .braceClose, .braceClose] = true ∧
      ∀ pair ∈ Tracker.start.pairs [] [.clause, .parenOpen, .literal, .parenClose, .braceOpen,
        .literal, .binary, .function, .parenOpen, .literal, .parenClose, .braceOpen, .literal,
        .parenOpen, .literal, .parenClose, .braceClose, .braceClose], pair.Restores :=
  ⟨by decide, (closers_undo_their_openers_iff _ (by decide)).2 (by decide)⟩

/-- The brace that closes the class body in `{class A{}}` closes the block around it, and the
parenthesis behind the parameters in `(function({a}){})` closes the group around the function. -/
theorem closers_that_undo_another_opener :
    (nestedWithin Tracker.depthLimit [] [.braceOpen, .literal, .literal, .braceOpen, .braceClose,
        .braceClose] = true ∧
      ¬ ∀ pair ∈ Tracker.start.pairs [] [.braceOpen, .literal, .literal, .braceOpen, .braceClose,
        .braceClose], pair.Restores) ∧
    (nestedWithin Tracker.depthLimit [] [.parenOpen, .function, .parenOpen, .braceOpen, .literal,
        .braceClose, .parenClose, .braceOpen, .braceClose, .parenClose] = true ∧
      ¬ ∀ pair ∈ Tracker.start.pairs [] [.parenOpen, .function, .parenOpen, .braceOpen, .literal,
        .braceClose, .parenClose, .braceOpen, .braceClose, .parenClose], pair.Restores) := by
  decide

end ScriptMinifier
