import UnitRegex.Alphabet.Bisect
import UnitRegex.Alphabet.CaseClasses

/-!
A table of the units that have case equivalents. The classes of equivalent units stand one behind
the other, and for each unit the table knows from where to where its class reaches. A set is closed
by looking up only those of its members that are in the table.
-/

namespace UnitRegex

structure CaseTable where
  /-- The units with an equivalent, in order. -/
  foldable : Array CodeUnit
  /-- For each of them the part of `members` that holds its class. -/
  spans : Array (Nat × Nat)
  members : Array CodeUnit

namespace CaseTable

/-- Orders pairs of a canonical form and a unit. -/
def formBefore (a b : CodeUnit × CodeUnit) : Bool := a.1 < b.1 || (a.1 == b.1 && a.2 ≤ b.2)

/-- All units with their canonical forms, ordered by the forms. -/
def byForm (canonical : CodeUnit → CodeUnit) : Array (CodeUnit × CodeUnit) :=
  ((allUnits.map fun c => (canonical c, c)).mergeSort formBefore).toArray

/-- The index at which the pairs of a form end that begin at `j`. -/
def classEnd (pairs : Array (CodeUnit × CodeUnit)) (form : CodeUnit) (j : Nat) : Nat :=
  if h : j < pairs.size then
    if pairs[j].1 = form then classEnd pairs form (j + 1) else j
  else j
termination_by pairs.size - j

theorem le_classEnd (pairs : Array (CodeUnit × CodeUnit)) (form : CodeUnit) (j : Nat) :
    j ≤ classEnd pairs form j := by
  fun_induction classEnd pairs form j with
  | case1 j h hform ih => exact Nat.le_of_succ_le ih
  | case2 j h hform => exact Nat.le_refl j
  | case3 j h => exact Nat.le_refl j

theorem lt_classEnd {pairs : Array (CodeUnit × CodeUnit)} {i : Nat} (h : i < pairs.size) :
    i < classEnd pairs pairs[i].1 i := by
  rw [classEnd, dif_pos h, if_pos rfl]
  exact le_classEnd pairs _ (i + 1)

/-- The members of all classes, and the units that have an equivalent with their spans. -/
structure Classes where
  members : Array CodeUnit := #[]
  entries : Array (CodeUnit × Nat × Nat) := #[]

/-- Adds a class, unless it has one member only. -/
def Classes.add (done : Classes) (units : Array CodeUnit) : Classes :=
  if 1 < units.size then
    let span := (done.members.size, done.members.size + units.size)
    ⟨done.members ++ units, done.entries ++ units.map fun c => (c, span)⟩
  else done

/-- Cuts the pairs from an index on into classes. -/
def cut (pairs : Array (CodeUnit × CodeUnit)) (i : Nat) (done : Classes) : Classes :=
  if h : i < pairs.size then
    let j := classEnd pairs pairs[i].1 i
    have := lt_classEnd h
    cut pairs j (done.add ((pairs.extract i j).map (·.2)))
  else done
termination_by pairs.size - i

def ofClasses (done : Classes) : CaseTable :=
  let entries := done.entries.toList.mergeSort fun a b => a.1 ≤ b.1
  ⟨(entries.map (·.1)).toArray, (entries.map (·.2)).toArray, done.members⟩

def build (canonical : CodeUnit → CodeUnit) : CaseTable :=
  ofClasses (cut (byForm canonical) 0 {})

/-- The class of a unit, or nothing if it has no equivalent. -/
def equivalents (t : CaseTable) (c : CodeUnit) : List CodeUnit :=
  match bisect (compare · c) t.foldable with
  | .ok i =>
    match t.spans[i]? with
    | some (start, stop) => (t.members.extract start stop).toList
    | none => []
  | .error _ => []

/-- The units of the table that lie in an interval. -/
def within (t : CaseTable) (r : Interval) : List CodeUnit :=
  (t.foldable.toList.drop (partitionPoint (· < r.lo) t.foldable)).takeWhile (· ≤ r.hi)

/-- Adds to a set the equivalents of its members. -/
def fold (t : CaseTable) (s : CharSet) : CharSet :=
  let extra := s.intervals.flatMap fun r =>
    (t.within r).flatMap fun c => (t.equivalents c).map Interval.single
  if extra.isEmpty then s else .ofIntervals (extra ++ s.intervals)

end CaseTable

end UnitRegex
