/-!
The outcome of a search: the bounds of every capture group as positions in the text, or nothing.
Capture slots are the start and the end of every capture group in turn, group 0 being the whole
match. A bound that is not set is `-1`.
-/

namespace UnitRegex

abbrev Slots := Array Int

namespace Slots

def unset (groupCount : Nat) : Slots := Array.replicate (2 * groupCount) (-1)

def start (s : Slots) (group : Nat) : Int := s[2 * group]?.getD (-1)

def stop (s : Slots) (group : Nat) : Int := s[2 * group + 1]?.getD (-1)

def setStart (s : Slots) (group : Nat) (value : Int) : Slots := s.setIfInBounds (2 * group) value

def setStop (s : Slots) (group : Nat) (value : Int) : Slots :=
  s.setIfInBounds (2 * group + 1) value

/-- Unsets the groups from `lo` up to `hi`. -/
def unsetGroups (s : Slots) (lo hi : Nat) : Slots :=
  s.mapIdx fun i v => if 2 * lo ≤ i ∧ i < 2 * hi then -1 else v

end Slots

structure SearchResult where
  /-- Empty if there is no match. -/
  slots : Slots
  deriving DecidableEq

namespace SearchResult

def noMatch : SearchResult := ⟨#[]⟩

/-- A match of which only the bounds of the whole are known. -/
def ofBounds (start stop groupCount : Nat) : SearchResult :=
  ⟨((Slots.unset (max groupCount 1)).setStart 0 start).setStop 0 stop⟩

def isMatch (r : SearchResult) : Bool := !r.slots.isEmpty

/-- Number of groups with a slot for the start. -/
def groupCount (r : SearchResult) : Nat := (r.slots.size + 1) / 2

def start (r : SearchResult) (group : Nat) : Int := r.slots.start group

def stop (r : SearchResult) (group : Nat) : Int := r.slots.stop group

/-- The bounds of a group that took part. -/
def group? (r : SearchResult) (group : Nat) : Option (Nat × Nat) :=
  let lo := r.start group
  let hi := r.stop group
  if 0 ≤ lo ∧ 0 ≤ hi then some (lo.toNat, hi.toNat) else none

/-- Start and end of every group. -/
def groups (r : SearchResult) : List (Int × Int) :=
  (List.range r.groupCount).map fun g => (r.start g, r.stop g)

def showGroup (bounds : Int × Int) : String :=
  "[" ++ toString bounds.1 ++ ", " ++ toString bounds.2 ++ ")"

/-- The groups that have both slots, as half-open intervals. -/
def display (r : SearchResult) : String :=
  if r.isMatch then
    "[" ++ ", ".intercalate ((r.groups.take (r.slots.size / 2)).map showGroup) ++ "]"
  else "NoMatch"

end SearchResult

end UnitRegex
