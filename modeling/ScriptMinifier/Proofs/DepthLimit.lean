-- What the bound on the stack can change. A tracker without the bound is set beside the tracker,
-- and both make the same moves. What does not fit on the full stack is lost from its top, so the
-- two differ only above the bound, and nobody can tell them apart before something is closed there.
import Mathlib.Data.List.DropRight
import ScriptMinifier.Proofs.Regions

namespace ScriptMinifier

/-! ## Moves -/

/-- What can happen to a tracker. -/
inductive Move where
  | advance (c : TokenClass)
  | endStatement
deriving DecidableEq, Repr

namespace Tracker

def move (tracker : Tracker) : Move → Tracker
  | .advance c => tracker.advance c
  | .endStatement => tracker.endStatement

def moves (tracker : Tracker) (made : List Move) : Tracker := made.foldl move tracker

theorem moves_concat (tracker : Tracker) (made : List Move) (m : Move) :
    tracker.moves (made ++ [m]) = (tracker.moves made).move m := by
  simp [moves]

/-! ## Without the bound -/

/-- The stack with what the token opens, however much is open already. -/
def openedFreely (tracker : Tracker) (c : TokenClass) : List Frame :=
  match tracker.place.resume? c with
  | some resume => { enclosure := .opened c (tracker.place.next c), resume } :: tracker.stack
  | none => tracker.stack

/-- The tracker behind one more token, if there is always room. -/
def advanceFreely (tracker : Tracker) (c : TokenClass) : Tracker :=
  match tracker.place.closes c, tracker.openedFreely c with
  | true, frame :: stack => { place := frame.resume, stack }
  | _, stack => { place := tracker.place.next c, stack }

def moveFreely (tracker : Tracker) : Move → Tracker
  | .advance c => tracker.advanceFreely c
  | .endStatement => tracker.endStatement

def movesFreely (tracker : Tracker) (made : List Move) : Tracker := made.foldl moveFreely tracker

theorem movesFreely_concat (tracker : Tracker) (made : List Move) (m : Move) :
    tracker.movesFreely (made ++ [m]) = (tracker.movesFreely made).moveFreely m := by
  simp [movesFreely]

variable {tracker : Tracker} {c : TokenClass} {m : Move}

theorem advanceFreely_of_opens {resume : Place} (h : tracker.place.resume? c = some resume) :
    tracker.advanceFreely c =
      ⟨tracker.place.next c, ⟨.opened c (tracker.place.next c), resume⟩ :: tracker.stack⟩ := by
  simp [advanceFreely, openedFreely, h, (Place.opens_of_resume? h).closes]

theorem advanceFreely_of_inert (hr : tracker.place.resume? c = none)
    (hc : tracker.place.closes c = false ∨ tracker.stack = []) :
    tracker.advanceFreely c = ⟨tracker.place.next c, tracker.stack⟩ := by
  rcases hc with hc | hc <;> simp [advanceFreely, openedFreely, hr, hc]

/-- As long as there is room, the bound changes nothing. -/
theorem advanceFreely_of_room (h : tracker.HasRoomFor c) :
    tracker.advanceFreely c = tracker.advance c := by
  have hopened : tracker.openedFreely c = tracker.opened c := by
    unfold openedFreely opened
    cases hr : tracker.place.resume? c with
    | none => rfl
    | some resume => exact (if_pos (h (by simp [hr]))).symm
  rw [advanceFreely, hopened]
  rfl

theorem advance_of_full {resume : Place} (hr : tracker.place.resume? c = some resume)
    (hfull : depthLimit ≤ tracker.stack.length) :
    tracker.advance c = ⟨tracker.place.next c, tracker.stack⟩ := by
  simp [advance, opened, hr, (Place.opens_of_resume? hr).closes, Nat.not_lt.2 hfull]

/-! ## What is dropped and what is taken off -/

/-- The move would put something on the stack, and does not for want of room. -/
def Drops (tracker : Tracker) (m : Move) : Prop :=
  tracker.stack.length < (tracker.moveFreely m).stack.length ∧
    (tracker.move m).stack = tracker.stack

/-- The move takes something off the stack. -/
def Pops (tracker : Tracker) (m : Move) : Prop :=
  (tracker.move m).stack.length < tracker.stack.length

theorem Pops.not_drops (h : tracker.Pops m) : ¬ tracker.Drops m := by
  rintro ⟨_, hsame⟩
  rw [Pops, hsame] at h
  exact Nat.lt_irrefl _ h

theorem drops_of_not_room (h : ¬ tracker.HasRoomFor c) : tracker.Drops (.advance c) := by
  obtain ⟨hr, hfull⟩ := Classical.not_imp.1 h
  obtain ⟨resume, hr⟩ := Option.ne_none_iff_exists'.1 hr
  constructor
  · rw [moveFreely, advanceFreely_of_opens hr]
    exact Nat.lt_succ_self _
  · rw [move, advance_of_full hr (Nat.not_lt.1 hfull)]

theorem moveFreely_of_not_drops (h : ¬ tracker.Drops m) :
    tracker.moveFreely m = tracker.move m := by
  cases m with
  | endStatement => rfl
  | advance c =>
    apply advanceFreely_of_room
    by_contra hroom
    exact h (drops_of_not_room hroom)

theorem Pops.closes (h : tracker.Pops (.advance c)) : tracker.place.closes c = true := by
  have hroom : tracker.HasRoomFor c := by
    by_contra hroom
    exact h.not_drops (drops_of_not_room hroom)
  rcases advance_cases tracker c hroom with ⟨resume, _, heq⟩ | ⟨_, _, hc, _⟩ | ⟨_, _, heq⟩
  · rw [Pops, move, heq] at h
    exact absurd h (Nat.not_lt.2 (Nat.le_succ _))
  · exact hc
  · rw [Pops, move, heq] at h
    exact absurd h (Nat.lt_irrefl _)

/-- Nothing is dropped before the stack is full. -/
theorem Drops.full (h : tracker.Drops m) : depthLimit ≤ tracker.stack.length := by
  obtain ⟨hgrows, hsame⟩ := h
  by_contra hroom
  have hfree : tracker.moveFreely m = tracker.move m := by
    cases m with
    | endStatement => rfl
    | advance c => exact advanceFreely_of_room fun _ => Nat.not_le.1 hroom
  rw [hfree, hsame] at hgrows
  exact Nat.lt_irrefl _ hgrows

theorem length_stack_move_le (h : tracker.stack.length ≤ depthLimit) :
    (tracker.move m).stack.length ≤ depthLimit := by
  cases m with
  | endStatement => exact h
  | advance c =>
    by_cases hroom : tracker.HasRoomFor c
    · rcases advance_cases tracker c hroom with ⟨resume, hr, heq⟩ | ⟨frame, below, _, hstack, heq⟩ |
        ⟨_, _, heq⟩
      · have hless := hroom (by simp [hr])
        rw [move, heq]
        exact hless
      · rw [hstack, List.length_cons] at h
        rw [move, heq]
        exact Nat.le_of_succ_le h
      · rw [move, heq]
        exact h
    · rw [(drops_of_not_room hroom).2]
      exact h

/-! ## One move of both -/

theorem rtake_of_length_le {stack : List Frame} {n : Nat} (h : stack.length ≤ n) :
    stack.rtake n = stack := by
  rw [List.rtake, Nat.sub_eq_zero_of_le h, List.drop_zero]

theorem rtake_cons_of_le {stack : List Frame} {n : Nat} (h : n ≤ stack.length) (frame : Frame) :
    (frame :: stack).rtake n = stack.rtake n := by
  rw [List.rtake, List.rtake, List.length_cons, Nat.succ_sub h, List.drop_succ_cons]

/-- The place is the same, and what is on the stack is the bottom of what would be there without
the bound. -/
structure Bottoms (bounded free : Tracker) : Prop where
  place : bounded.place = free.place
  stack : bounded.stack = free.stack.rtake depthLimit

namespace Bottoms

variable {bounded free : Tracker}

theorem self (h : tracker.stack.length ≤ depthLimit) : tracker.Bottoms tracker :=
  ⟨rfl, (rtake_of_length_le h).symm⟩

theorem length_stack (h : bounded.Bottoms free) :
    bounded.stack.length = min depthLimit free.stack.length := by
  rw [h.stack, List.rtake, List.length_drop]
  omega

/-- What is opened goes on both stacks, or on the one without the bound only. -/
theorem advance_of_opens (h : bounded.Bottoms free) {resume : Place}
    (hr : bounded.place.resume? c = some resume) :
    (bounded.advance c).Bottoms (free.advanceFreely c) := by
  have hlength := h.length_stack
  have hfree : free.place.resume? c = some resume := h.place ▸ hr
  rw [advanceFreely_of_opens hfree]
  by_cases hfull : depthLimit ≤ bounded.stack.length
  · rw [advance_of_full hr hfull]
    refine ⟨by rw [h.place], ?_⟩
    rw [rtake_cons_of_le (by omega)]
    exact h.stack
  · have hroom : bounded.HasRoomFor c := fun _ => Nat.not_le.1 hfull
    rw [← advanceFreely_of_room hroom, advanceFreely_of_opens hr, h.place]
    refine ⟨rfl, ?_⟩
    have hless : free.stack.length < depthLimit := by omega
    rw [h.stack, rtake_of_length_le (Nat.le_of_lt hless), rtake_of_length_le hless]

/-- A token that opens nothing and closes nothing leaves both stacks as they are. -/
theorem advance_of_inert (h : bounded.Bottoms free) (hr : bounded.place.resume? c = none)
    (hc : bounded.place.closes c = false ∨ bounded.stack = []) :
    (bounded.advance c).Bottoms (free.advanceFreely c) := by
  have hroom : bounded.HasRoomFor c := fun hopens => absurd hr hopens
  have hfree : free.place.closes c = false ∨ free.stack = [] := by
    rcases hc with hc | hc
    · exact Or.inl (h.place ▸ hc)
    · have hlength := h.length_stack
      rw [hc, List.length_nil, depthLimit] at hlength
      exact Or.inr (List.eq_nil_of_length_eq_zero (by omega))
  rw [← advanceFreely_of_room hroom, advanceFreely_of_inert hr hc,
    advanceFreely_of_inert (h.place ▸ hr) hfree]
  exact ⟨by rw [h.place], h.stack⟩

/-- A move that takes nothing off leaves the bottom where it is. -/
theorem move (h : bounded.Bottoms free) (hpops : ¬ bounded.Pops m) :
    (bounded.move m).Bottoms (free.moveFreely m) := by
  cases m with
  | endStatement => exact ⟨rfl, h.stack⟩
  | advance c =>
    cases hr : bounded.place.resume? c with
    | some resume => exact h.advance_of_opens hr
    | none =>
      apply h.advance_of_inert hr
      by_contra hcloses
      obtain ⟨hc, hne⟩ := not_or.1 hcloses
      obtain ⟨frame, below, hstack⟩ := List.exists_cons_of_ne_nil hne
      apply hpops
      have hafter : bounded.advance c = ⟨frame.resume, below⟩ := by
        rw [← Tracker.advance_of_closes frame below hr (by simpa using hc), ← hstack]
      rw [Pops, Tracker.move, hafter, hstack]
      exact Nat.lt_succ_self _

end Bottoms

/-! ## Whole runs -/

/-- Somewhere in the run something is dropped for want of room. -/
def HasDropped (made : List Move) : Prop :=
  ∃ before m, before ++ [m] <+: made ∧ (start.moves before).Drops m

/-- Somewhere in the run something is taken off the stack, after something was dropped. -/
def HasPoppedSinceDrop (made : List Move) : Prop :=
  ∃ before m, before ++ [m] <+: made ∧ HasDropped before ∧ (start.moves before).Pops m

theorem length_stack_moves_le (made : List Move) :
    (start.moves made).stack.length ≤ depthLimit := by
  induction made using List.reverseRecOn with
  | nil => exact Nat.zero_le _
  | append_singleton made m ih =>
    rw [moves_concat]
    exact length_stack_move_le ih

theorem movesFreely_of_not_hasDropped {made : List Move} (h : ¬ HasDropped made) :
    start.movesFreely made = start.moves made := by
  induction made using List.reverseRecOn with
  | nil => rfl
  | append_singleton made m ih =>
    have hbefore : ¬ HasDropped made := by
      rintro ⟨before, m', hpart, hdrops⟩
      exact h ⟨before, m', hpart.trans (List.prefix_append _ _), hdrops⟩
    have hlast : ¬ (start.moves made).Drops m := fun hdrops => h ⟨made, m, List.prefix_rfl, hdrops⟩
    rw [movesFreely_concat, moves_concat, ih hbefore, moveFreely_of_not_drops hlast]

/-- Until something is taken off after a drop, the bottom of the stack is right. The induction adds
a move at the end: if it takes something off, nothing was dropped so far and both trackers are
still the same. -/
theorem bottoms_moves {made : List Move} (h : ¬ HasPoppedSinceDrop made) :
    (start.moves made).Bottoms (start.movesFreely made) := by
  induction made using List.reverseRecOn with
  | nil => exact Bottoms.self (Nat.zero_le _)
  | append_singleton made m ih =>
    have hbefore : ¬ HasPoppedSinceDrop made := by
      rintro ⟨before, m', hpart, hsince⟩
      exact h ⟨before, m', hpart.trans (List.prefix_append _ _), hsince⟩
    rw [moves_concat, movesFreely_concat]
    by_cases hpops : (start.moves made).Pops m
    · have hnone : ¬ HasDropped made := fun hdropped =>
        h ⟨made, m, List.prefix_rfl, hdropped, hpops⟩
      rw [movesFreely_of_not_hasDropped hnone, moveFreely_of_not_drops hpops.not_drops]
      exact Bottoms.self (length_stack_move_le (length_stack_moves_le made))
    · exact (ih hbefore).move hpops

/-- If the stack never outgrows the bound, the bound is never noticed. -/
theorem moves_of_never_deeper {made : List Move}
    (h : ∀ before, before <+: made → (start.movesFreely before).stack.length ≤ depthLimit) :
    start.moves made = start.movesFreely made := by
  induction made using List.reverseRecOn with
  | nil => rfl
  | append_singleton made m ih =>
    have hsame := ih fun before hpart => h before (hpart.trans (List.prefix_append _ _))
    have hdeep := h (made ++ [m]) List.prefix_rfl
    have hlast : ¬ (start.moves made).Drops m := by
      intro hdrops
      have hgrows := Nat.lt_of_le_of_lt hdrops.full hdrops.1
      rw [movesFreely_concat, ← hsame] at hdeep
      exact Nat.not_lt.2 hdeep hgrows
    rw [moves_concat, movesFreely_concat, ← hsame, moveFreely_of_not_drops hlast]

end Tracker

/-- With no bound, every opening parenthesis at the start of a script goes on the stack. -/
theorem movesFreely_parens (n : Nat) :
    ∃ frames, frames.length = n + 1 ∧
      Tracker.start.movesFreely (List.replicate (n + 1) (.advance .parenOpen)) =
        ⟨.expression .group .operand, frames⟩ := by
  induction n with
  | zero => exact ⟨_, rfl, rfl⟩
  | succ n ih =>
    obtain ⟨frames, hlength, hfree⟩ := ih
    refine ⟨⟨.group, .expression .group .operator⟩ :: frames, by rw [List.length_cons, hlength], ?_⟩
    rw [List.replicate_succ', Tracker.movesFreely_concat, hfree]
    rfl

/-! ## The law -/

/-- In every run, whatever its moves are, the stack stays within its bound. Without the bound the
tracker would stand at the same place, read a slash in the same way and keep the same line breaks,
up to the first move that takes something off the stack after something was dropped. Until then
the stack is the bottom of what it would be without the bound. If it would never outgrow the bound,
the two never differ at all. -/
theorem depth_limit_matters_only_for_excess_closers (made : List Move) :
    let bounded := Tracker.start.moves made
    let free := Tracker.start.movesFreely made
    bounded.stack.length ≤ Tracker.depthLimit ∧
    (¬ Tracker.HasPoppedSinceDrop made →
      bounded.place = free.place ∧ bounded.slash = free.slash ∧
      (∀ c, bounded.breaksBefore c = free.breaksBefore c) ∧
      bounded.stack = free.stack.rtake Tracker.depthLimit) ∧
    ((∀ before, before <+: made →
        (Tracker.start.movesFreely before).stack.length ≤ Tracker.depthLimit) →
      bounded = free) := by
  intro bounded free
  refine ⟨Tracker.length_stack_moves_le made, ?_, Tracker.moves_of_never_deeper⟩
  intro hnone
  obtain ⟨hplace, hstack⟩ := Tracker.bottoms_moves hnone
  refine ⟨hplace, ?_, ?_, hstack⟩
  · exact congrArg Place.slash hplace
  · intro c
    exact congrArg (Place.breaksBefore · c) hplace

/-- One parenthesis too many is dropped, and nothing can be told yet. -/
theorem parens_fill_the_stack :
    let made := List.replicate 1001 (Move.advance .parenOpen)
    ¬ Tracker.HasPoppedSinceDrop made ∧ (Tracker.start.movesFreely made).stack.length = 1001 ∧
      (Tracker.start.moves made).stack.length = 1000 ∧
      (Tracker.start.moves made).place = (Tracker.start.movesFreely made).place := by
  intro made
  have hnone : ¬ Tracker.HasPoppedSinceDrop made := by
    rintro ⟨before, m, hpart, _, hpops⟩
    obtain rfl : m = .advance .parenOpen := List.eq_of_mem_replicate (hpart.subset (by simp))
    have hcloser := (Place.eq_closer_of_closes hpops.closes).1
    cases hregion : (Tracker.start.moves before).place.region <;> rw [hregion] at hcloser <;>
      cases hcloser
  obtain ⟨frames, hlength, hfree⟩ := movesFreely_parens 1000
  obtain ⟨hplace, _, _, hstack⟩ := (depth_limit_matters_only_for_excess_closers made).2.1 hnone
  refine ⟨hnone, by rw [hfree, hlength], ?_, hplace⟩
  rw [hstack, hfree, List.rtake, List.length_drop, hlength]
  rfl

end ScriptMinifier
