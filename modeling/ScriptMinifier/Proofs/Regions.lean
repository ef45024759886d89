-- The regions of a program. What is open innermost decides which places the tracker can stand at,
-- and each open thing returns to a place of the region around it. So a closing token never closes
-- something that is not of its own sort.
import ScriptMinifier.Tracker

namespace ScriptMinifier

/-! ## Every place and every class -/

/-- Every place, so that the rules can be checked at each of them. -/
def Place.all : List Place :=
  [.statement, .header, .key, .restricted] ++
    [Scope.plain, .conditional, .group, .property].flatMap fun scope =>
      [Phase.operand, .operator, .function, .arrow].map (Place.expression scope)

theorem Place.mem_all (place : Place) : place ∈ Place.all := by
  rcases place with _ | _ | _ | _ | ⟨scope, phase⟩
  case expression => cases scope <;> cases phase <;> decide
  all_goals decide

instance {P : Place → Prop} [DecidablePred P] : Decidable (∀ place, P place) :=
  decidable_of_iff (∀ place ∈ Place.all, P place)
    ⟨fun h place => h place place.mem_all, fun h place _ => h place⟩

instance {P : TokenClass → Prop} [DecidablePred P] : Decidable (∀ c, P c) :=
  decidable_of_iff (∀ c ∈ TokenClass.all, P c) ⟨fun h c => h c c.mem_all, fun h c _ => h c⟩

/-! ## Regions -/

/-- The sort of enclosure that a place belongs to. The top level of a script counts as a block. -/
def Place.region : Place → Enclosure
  | .statement | .header | .restricted | .expression .plain _ => .block
  | .key | .expression .property _ => .object
  | .expression .group _ => .group
  | .expression .conditional _ => .conditional

/-- The place belongs to what is open innermost, and the place that each open thing returns to
belongs to what is open around it. -/
def Place.Fits : Place → List Frame → Prop
  | place, [] => place.region = .block
  | place, frame :: below => place.region = frame.enclosure ∧ frame.resume.Fits below

theorem Place.Fits.congr {place other : Place} {stack : List Frame} (h : place.Fits stack)
    (hregion : other.region = place.region) : other.Fits stack := by
  cases stack with
  | nil => exact hregion.trans h
  | cons frame below => exact ⟨hregion.trans h.1, h.2⟩

/-- The class of the token that closes an enclosure. -/
def Enclosure.closer : Enclosure → TokenClass
  | .block | .object => .braceClose
  | .group => .parenClose
  | .conditional => .colon

/-! ## The rules and the regions -/

namespace Place

variable {place resume : Place} {c : TokenClass}

/-- A token that opens nothing stays in its region, whether it closes something or not. -/
theorem region_next (h : place.resume? c = none) : (place.next c).region = place.region := by
  revert place c
  decide +kernel

/-- What is opened is a region of its own. It returns to the region around it, and behind an
object literal a slash divides. -/
structure Opens (place : Place) (c : TokenClass) (resume : Place) : Prop where
  opener : c = .braceOpen ∨ c = .parenOpen ∨ c = .question
  closes : place.closes c = false
  returns : resume.region = place.region
  enters : (place.next c).region = .opened c (place.next c)
  divides : Enclosure.opened c (place.next c) = .object → resume.isDivision = true

theorem opens_of_resume? (h : place.resume? c = some resume) : place.Opens c resume := by
  rcases place with _ | _ | _ | _ | ⟨scope, phase⟩
  case expression =>
    cases scope <;> cases phase <;> cases c <;> cases h <;>
      exact ⟨by decide, by decide, by decide, by decide, by decide⟩
  all_goals
    cases c <;> cases h <;> exact ⟨by decide, by decide, by decide, by decide, by decide⟩

/-- Only the closer of a region closes something there, and it opens nothing. -/
theorem eq_closer_of_closes (h : place.closes c = true) :
    c = place.region.closer ∧ place.resume? c = none := by
  revert place c
  decide +kernel

theorem region_of_breaksBefore (h : place.breaksBefore c = true) : place.region = .block := by
  revert place c
  decide +kernel

end Place

/-! ## One step -/

namespace Tracker

/-- What the token opens is not dropped for want of room. -/
def HasRoomFor (tracker : Tracker) (c : TokenClass) : Prop :=
  tracker.place.resume? c ≠ none → tracker.stack.length < depthLimit

/-- A token either opens something, or closes what is open innermost, or only moves the place. -/
theorem advance_cases (tracker : Tracker) (c : TokenClass) (hroom : tracker.HasRoomFor c) :
    (∃ resume, tracker.place.resume? c = some resume ∧ tracker.advance c =
      ⟨tracker.place.next c, ⟨.opened c (tracker.place.next c), resume⟩ :: tracker.stack⟩) ∨
    (∃ frame below, tracker.place.closes c = true ∧ tracker.stack = frame :: below ∧
      tracker.advance c = ⟨frame.resume, below⟩) ∨
    (tracker.place.resume? c = none ∧ (tracker.place.closes c = false ∨ tracker.stack = []) ∧
      tracker.advance c = ⟨tracker.place.next c, tracker.stack⟩) := by
  obtain ⟨place, stack⟩ := tracker
  cases hr : place.resume? c with
  | some resume =>
    have hopens := Place.opens_of_resume? hr
    exact Or.inl ⟨resume, rfl, advance_of_opens hr hopens.closes (hroom (by simp [hr]))⟩
  | none =>
    right
    cases hc : place.closes c with
    | false => exact Or.inr ⟨rfl, Or.inl rfl, advance_of_inert stack hr hc⟩
    | true =>
      cases stack with
      | nil => exact Or.inr ⟨rfl, Or.inr rfl, by simp [advance, opened, hr, hc]⟩
      | cons frame below => exact Or.inl ⟨frame, below, rfl, rfl, advance_of_closes _ _ hr hc⟩

/-- The tracker stands in the region of what is open innermost, and an object literal that is
open will be an operand. -/
structure Placed (tracker : Tracker) : Prop where
  fits : tracker.place.Fits tracker.stack
  divides : ∀ frame ∈ tracker.stack, frame.enclosure = .object → frame.resume.isDivision = true

namespace Placed

variable {tracker : Tracker} {c : TokenClass}

theorem start : Placed .start := by
  constructor
  · rfl
  · intro frame hmem
    cases hmem

theorem advance (h : tracker.Placed) (hroom : tracker.HasRoomFor c) :
    (tracker.advance c).Placed := by
  obtain ⟨hfits, hdivides⟩ := h
  rcases advance_cases tracker c hroom with ⟨resume, hr, heq⟩ | ⟨frame, below, _, hstack, heq⟩ |
    ⟨hr, _, heq⟩
  · have hopens := Place.opens_of_resume? hr
    rw [heq]
    refine ⟨⟨hopens.enters, hfits.congr hopens.returns⟩, ?_⟩
    intro frame hmem
    rcases List.mem_cons.1 hmem with rfl | hmem
    · exact hopens.divides
    · exact hdivides frame hmem
  · rw [hstack] at hfits hdivides
    rw [heq]
    refine ⟨hfits.2, ?_⟩
    intro other hmem
    exact hdivides other (List.mem_cons_of_mem _ hmem)
  · rw [heq]
    exact ⟨hfits.congr (Place.region_next hr), hdivides⟩

/-- A line break ends a statement only where statements stand. -/
theorem endStatement (h : tracker.Placed) (hbreak : tracker.breaksBefore c = true) :
    tracker.endStatement.Placed := by
  have hregion := Place.region_of_breaksBefore hbreak
  exact ⟨h.fits.congr hregion.symm, h.divides⟩

end Placed

/-! ## Whole runs -/

/-- The trackers that a run can come to. It moves past tokens of any classes, as long as nothing
is dropped for want of room, and it ends a statement only where a line break before the next token
does that. -/
inductive Reached : Tracker → Prop
  | start : Reached .start
  | advance {tracker c} : Reached tracker → tracker.HasRoomFor c → Reached (tracker.advance c)
  | endStatement {tracker c} : Reached tracker → tracker.breaksBefore c = true →
      Reached tracker.endStatement

/-- The reader and the writer make no other moves. -/
theorem Reached.read {tracker : Tracker} {c : TokenClass} (h : tracker.Reached)
    (followsBreak : Bool) (hroom : tracker.stack.length < depthLimit) :
    (tracker.read c followsBreak).Reached := by
  unfold Tracker.read
  split
  · next hbreak =>
    have hended := h.endStatement (Bool.and_eq_true_iff.1 hbreak).2
    exact hended.advance fun _ => hroom
  · exact h.advance fun _ => hroom

theorem Reached.placed {tracker : Tracker} (h : tracker.Reached) : tracker.Placed := by
  induction h with
  | start => exact .start
  | advance _ hroom ih => exact ih.advance hroom
  | endStatement _ hbreak ih => exact ih.endStatement hbreak

/-- A stack gets shorter only when its top is closed. -/
theorem closes_of_stack_advance {tracker : Tracker} {c : TokenClass} {frame : Frame}
    {below : List Frame} (hstack : tracker.stack = frame :: below)
    (h : (tracker.advance c).stack = below) :
    tracker.place.closes c = true ∧ (tracker.advance c).place = frame.resume := by
  cases hc : tracker.place.closes c with
  | true =>
    have hr := (Place.eq_closer_of_closes hc).2
    exact ⟨rfl, by simp [advance, opened, hr, hc, hstack]⟩
  | false =>
    exfalso
    have hlength : tracker.stack.length ≤ (tracker.advance c).stack.length := by
      simp only [advance, hc, opened]
      split
      · split
        · exact Nat.le_succ _
        · exact Nat.le_refl _
      · exact Nat.le_refl _
    rw [hstack, h, List.length_cons] at hlength
    omega

end Tracker

/-! ## The law -/

/-- In every run the place belongs to what is open innermost, all the way down the stack. So what a
token closes is of its own sort, and behind an object literal a slash divides. -/
theorem place_belongs_to_what_is_open {tracker : Tracker} (h : tracker.Reached) :
    tracker.place.Fits tracker.stack ∧
    ∀ c frame below, tracker.stack = frame :: below → (tracker.advance c).stack = below →
      c = frame.enclosure.closer ∧ (tracker.advance c).place = frame.resume ∧
        (frame.enclosure = .object → (tracker.advance c).place.isDivision = true) := by
  obtain ⟨hfits, hdivides⟩ := h.placed
  refine ⟨hfits, ?_⟩
  intro c frame below hstack hpopped
  obtain ⟨hcloses, hplace⟩ := Tracker.closes_of_stack_advance hstack hpopped
  rw [hstack] at hfits hdivides
  have hcloser := (Place.eq_closer_of_closes hcloses).1
  rw [hfits.1] at hcloser
  refine ⟨hcloser, hplace, ?_⟩
  intro hobject
  rw [hplace]
  exact hdivides frame List.mem_cons_self hobject

/-- Behind `return`, a line break and `f({a:b`, the object literal is open inside of the
parentheses, and its brace closes it. -/
theorem object_in_a_call_is_closed_by_its_brace :
    let tracker : Tracker := ⟨.expression .property .operator,
      [⟨.object, .expression .group .operator⟩, ⟨.group, .expression .plain .operator⟩]⟩
    tracker.Reached ∧ tracker.place.Fits tracker.stack ∧
      (tracker.advance .braceClose).stack = [⟨.group, .expression .plain .operator⟩] ∧
      (tracker.advance .braceClose).place.isDivision = true := by
  intro tracker
  have hreached : tracker.Reached := by
    have hname := (Tracker.Reached.start.read (c := .jump) false (by decide)).read
      (c := .literal) true (by decide)
    have hkey := ((hname.read (c := .parenOpen) false (by decide)).read
      (c := .braceOpen) false (by decide)).read (c := .literal) false (by decide)
    exact (hkey.read (c := .colon) false (by decide)).read (c := .literal) false (by decide)
  obtain ⟨hfits, hcloses⟩ := place_belongs_to_what_is_open hreached
  exact ⟨hreached, hfits, rfl, (hcloses .braceClose _ _ rfl rfl).2.2 rfl⟩

end ScriptMinifier
