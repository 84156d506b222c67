import UnitRegex.Alphabet.Text
import UnitRegex.Table.Matcher

/-!
Deterministic automata as tables, and the walks over a text that run them. A state that loops to
itself on one interval lets a walk pass over a run of such units at once.
-/

namespace UnitRegex

/-- The byte that stands for no result. -/
def noResult : UInt8 := 0xFF

/-- Ids of precalculated results that a state can report: the smallest one that holds at any position,
and the smallest one that holds only at the start of the input. -/
structure ResultIds where
  free : UInt8 := noResult
  anchored : UInt8 := noResult
  deriving DecidableEq

namespace ResultIds

/-- Keeps the smallest id of each kind. -/
def add (r : ResultIds) (id : UInt8) (anchored : Bool) : ResultIds :=
  if anchored then { r with anchored := if id < r.anchored then id else r.anchored }
  else { r with free := if id < r.free then id else r.free }

def known? (id : UInt8) : Option UInt8 := if id == noResult then none else some id

def free? (r : ResultIds) : Option UInt8 := known? r.free

def anchored? (r : ResultIds) : Option UInt8 := known? r.anchored

/-- The result to report. An anchored one only counts at the start of the input, where it loses
only to a smaller free id. -/
def choose? (r : ResultIds) (atStart : Bool) : Option UInt8 :=
  match r.free?, r.anchored?.filter fun _ => atStart with
  | some u, some a => some (if u < a then u else a)
  | some u, none => some u
  | none, a => a

end ResultIds

/-- Where a state accepts, and how far behind the position the match lies. -/
structure Acceptance where
  /-- At any position. -/
  anywhere : Bool := false
  /-- At the edge of the text that the walk runs towards. -/
  atEdge : Bool := false
  delay : UInt16 := 0
  edgeDelay : UInt16 := 0
  deriving DecidableEq

structure TableState where
  id : Nat
  /-- Disjoint matchers with the states they lead to. -/
  edges : List (Matcher × Nat)
  /-- An interval on which the state leads to itself. -/
  loop : Option Interval
  /-- The only unit the state accepts, with its successor. -/
  single : Option (CodeUnit × Nat)
  acceptance : Acceptance
  resultIds : ResultIds

namespace TableState

/-- The successor by the first matcher that accepts a unit. -/
def byEdges (s : TableState) (c : CodeUnit) : Option Nat :=
  (s.edges.find? (·.1.accepts c)).map (·.2)

def next (s : TableState) (c : CodeUnit) : Option Nat :=
  match s.single with
  | some (only, successor) => if c == only then some successor else none
  | none => s.byEdges c

/-- A state without successors that accepts nothing. -/
def dead : TableState := ⟨0, [], none, none, {}, {}⟩

end TableState

structure Dfa where
  states : Array TableState
  entries : List Nat

/-- The first position from `cursor` on whose unit lies outside an interval. -/
def Text.passForward (text : Text) (r : Interval) (cursor : Nat) : Nat :=
  if h : cursor < text.size then
    if text[cursor] ∈ r then text.passForward r (cursor + 1) else cursor
  else cursor
termination_by text.size - cursor

/-- The last position from `cursor` down to `floor` behind a unit outside an interval. -/
def Text.passBackward (text : Text) (r : Interval) (floor : Nat) : Nat → Nat
  | 0 => 0
  | cursor + 1 =>
    if floor < cursor + 1 ∧ text[cursor]?.any (· ∈ r) then text.passBackward r floor cursor
    else cursor + 1

namespace Dfa

def state (d : Dfa) (id : Nat) : TableState := d.states[id]?.getD TableState.dead

def size (d : Dfa) : Nat := d.states.size

def entry (d : Dfa) (i : Nat) : Nat := d.entries[i]?.getD d.states.size

/-- The end of a match that a state reports at a position. -/
def endAt? (text : Text) (a : Acceptance) (cursor : Nat) : Option Nat :=
  if cursor = text.size ∧ a.atEdge then some (cursor - a.edgeDelay.toNat)
  else if a.anywhere then some (cursor - a.delay.toNat)
  else none

/-- Walks to the right from a state and gives the end reported last, or `last`. -/
def endFrom (d : Dfa) (text : Text) (state : TableState) (cursor : Nat) (last : Option Nat) :
    Option Nat :=
  let last := (endAt? text state.acceptance cursor).or last
  if h : cursor < text.size then
    let stop := match state.loop with
      | some r => text.passForward r cursor
      | none => cursor
    if cursor < stop then d.endFrom text state stop last
    else
      match state.next text[cursor] with
      | some id => d.endFrom text (d.state id) (cursor + 1) last
      | none => last
  else last
termination_by text.size - cursor

/-- The end of the last match that a walk from `cursor` reports. -/
def lastEnd? (d : Dfa) (text : Text) (entry cursor : Nat) : Option Nat :=
  d.endFrom text (d.state entry) cursor none

/-- Walks to the left and gives the report at the smallest position, or `best`. The walk ends at
`floor`; from below `floor` it goes on to the beginning of the text. -/
def walkBack {α : Type} (d : Dfa) (text : Text) (report : TableState → Nat → Option α) (floor : Nat)
    (state : TableState) (cursor : Nat) (best : Option (Nat × α)) : Option (Nat × α) :=
  let best := ((report state cursor).map fun a => (cursor, a)).or best
  if 0 < cursor ∧ cursor ≠ floor then
    let stop := match state.loop with
      | some r => text.passBackward r floor cursor
      | none => cursor
    if stop < cursor then d.walkBack text report floor state stop best
    else
      match text[cursor - 1]?.bind state.next with
      | some id => d.walkBack text report floor (d.state id) (cursor - 1) best
      | none => best
  else best
termination_by cursor

/-- The smallest accepting position from `stop` down to `floor`. -/
def firstStart? (d : Dfa) (text : Text) (entry stop floor : Nat) : Option Nat :=
  let accepts (s : TableState) (cursor : Nat) : Option Unit :=
    if s.acceptance.anywhere || (cursor == 0 && s.acceptance.atEdge) then some () else none
  (d.walkBack text accepts floor (d.state entry) stop none).map (·.1)

/-- The smallest position with a precalculated result, and the id of that result. -/
def firstResult? (d : Dfa) (text : Text) (entry stop floor : Nat) : Option (Nat × UInt8) :=
  let known (s : TableState) (cursor : Nat) : Option UInt8 := s.resultIds.choose? (cursor == 0)
  d.walkBack text known floor (d.state entry) stop none

end Dfa

end UnitRegex
