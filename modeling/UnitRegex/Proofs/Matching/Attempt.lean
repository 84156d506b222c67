import UnitRegex.Backtrack.Halting

/-!
What a pattern means, by continuations. A part of a pattern is tried at a state and hands every
state in which it succeeds to what comes next, the preferred one first, until one is accepted.
Nothing here knows about code, registers or automata.
-/

namespace UnitRegex

/-- Where a match stands: the position in the text, and the captures so far. -/
structure MatchState where
  cursor : Nat
  slots : Slots

namespace MatchState

def moveTo (x : MatchState) (cursor : Nat) : MatchState := { x with cursor := cursor }

/-- Unsets the captures of a range of groups. -/
def clear (x : MatchState) : Option (Nat × Nat) → MatchState
  | some (lo, hi) => { x with slots := x.slots.unsetGroups lo hi }
  | none => x

/-- Sets a group to what lies between `origin` and the position reached. -/
def record (x : MatchState) (d : Direction) (group origin : Nat) : MatchState :=
  match d with
  | .forward => { x with slots := (x.slots.setStart group origin).setStop group x.cursor }
  | .backward => { x with slots := (x.slots.setStart group x.cursor).setStop group origin }

/-- Records a group that may have no number. -/
def recordAny (x : MatchState) (d : Direction) (capture : Option Nat) (origin : Nat) :
    MatchState :=
  match capture with
  | some group => x.record d group origin
  | none => x

end MatchState

/-- What is matched next. -/
abbrev Continuation := MatchState → Option MatchState

/-- A part of a pattern as the way it is tried. -/
abbrev Attempt := MatchState → Continuation → Option MatchState

namespace Attempt

/-- One pass through a group, whose captures are unset first. A capture is recorded at the end. -/
def pass (d : Direction) (capture : Option Nat) (span : Option (Nat × Nat)) (body : Attempt) :
    Attempt := fun x k =>
  body (x.clear span) fun y => k (y.recordAny d capture x.cursor)

/-- A loop that has finished `count` iterations. One past the minimum fails if it leaves as much of
the text as there was before it. -/
def repeated (text : Text) (d : Direction) (q : Quantifier) (body : Attempt) (count : Nat)
    (x : MatchState) (k : Continuation) : Option MatchState :=
  let again := body x fun y =>
    if q.min ≤ count ∧ text.left d x.cursor ≤ text.left d y.cursor then none
    else repeated text d q body (count + 1) y k
  if count < q.min then again
  else if q.max.any (· ≤ count) then k x
  else if q.greedy then again.or (k x)
  else (k x).or again
termination_by (q.min - count, text.left d x.cursor)
decreasing_by
  rw [Prod.lex_def]
  omega

end Attempt

/-- The direction in which the body of a look-around is read. -/
def Direction.ofLook (behind : Bool) : Direction := if behind then .backward else .forward

mutual

def Term.attempt (flags : Flags) (text : Text) (d : Direction) : Term → Attempt
  | .unit set => fun x k =>
    match text.read x.cursor d with
    | some (c, cursor) => if set.contains c then k (x.moveTo cursor) else none
    | none => none
  | .anchor kind => fun x k => if kind.holds flags.multiline text x.cursor then k x else none
  | .backReference group => fun x k =>
    match text.readGroup flags x.slots group x.cursor d with
    | some cursor => k (x.moveTo cursor)
    | none => none
  | .look behind negated body => fun x k =>
    -- The first success of the body is final, and a negated look-around keeps none of its captures.
    match body.attempt flags text (.ofLook behind) x some, negated with
    | some y, false => k { x with slots := y.slots }
    | none, true => k x
    | _, _ => none
  | .group capture none body => .pass d capture none (body.attempt flags text d)
  | .group capture (some q) body =>
    .repeated text d q
      (.pass d capture (Term.group capture (some q) body).groupSpan (body.attempt flags text d)) 0

def Branch.attempt (flags : Flags) (text : Text) (d : Direction) : Branch → Attempt
  | .nil => fun x k => k x
  | .cons t rest =>
    match d with
    | .forward => fun x k => t.attempt flags text d x fun y => rest.attempt flags text d y k
    | .backward => fun x k => rest.attempt flags text d x fun y => t.attempt flags text d y k

def Choice.attempt (flags : Flags) (text : Text) (d : Direction) : Choice → Attempt
  | .one b => b.attempt flags text d
  | .more b rest => fun x k => (b.attempt flags text d x k).or (rest.attempt flags text d x k)

end

end UnitRegex
