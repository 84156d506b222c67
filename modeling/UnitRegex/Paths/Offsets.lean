import UnitRegex.Search.SearchResult

/-!
Bounds of capture groups as offsets from the start of a match, for a match of known length. Where
such a match lies in a text tells the positions of all its groups.
-/

namespace UnitRegex

structure Offsets where
  slots : Slots
  /-- Number of units of the match. -/
  length : Nat
  deriving DecidableEq

namespace Offsets

def unset (groupCount : Nat) : Offsets := ⟨Slots.unset groupCount, 0⟩

def groupCount (o : Offsets) : Nat := o.slots.size / 2

def setStart (o : Offsets) (group : Nat) (offset : Int) : Offsets :=
  { o with slots := o.slots.setStart group offset }

def setStop (o : Offsets) (group : Nat) (offset : Int) : Offsets :=
  { o with slots := o.slots.setStop group offset }

/-- Takes over the slots that a path set, and its length. -/
def update (o : Offsets) (slots : Slots) (length : Nat) : Offsets :=
  ⟨o.slots.mapIdx fun i old => (slots[i]?.filter (0 ≤ ·)).getD old, length⟩

def movedBy (o : Offsets) (distance : Int) : SearchResult :=
  ⟨o.slots.map fun offset => if offset < 0 then -1 else offset + distance⟩

/-- The groups of a match that starts at a position. -/
def fromStart (o : Offsets) (start : Nat) : SearchResult := o.movedBy start

/-- The groups of a match that ends at a position. -/
def fromEnd (o : Offsets) (stop : Nat) : SearchResult := o.movedBy (stop - o.length)

end Offsets

end UnitRegex
