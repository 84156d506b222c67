import UnitRegex.Automaton.Refusal
import UnitRegex.Table.Dfa
import Std.Data.HashMap

/-!
The subset construction, for anything that can be read as a deterministic automaton whose states
are keys: keys have equality and a hash, and a key tells the sets of units on which it may leave.
All units between two neighbouring bounds of those sets lead to the same key, so one step for each
such piece of the alphabet is enough.
-/

namespace UnitRegex

structure Powerset (κ : Type) where
  /-- Sets on which a key may leave; a unit outside all of them leads to a dead key. -/
  nextSets : κ → List CharSet
  after : κ → CodeUnit → κ
  dead : κ → Bool
  acceptance : κ → Acceptance
  resultIds : κ → ResultIds

/-- Keys numbered in the order of their first appearance. -/
structure KeyNumbers (κ : Type) [BEq κ] [Hashable κ] where
  ids : Std.HashMap κ Nat := ∅
  keys : Array κ := #[]

/-- The bounds of the pieces of the alphabet that no set cuts through: each piece reaches from one
bound up to the next. -/
def pieceBounds (sets : List CharSet) : List Nat :=
  let bounds := sets.flatMap fun s => s.intervals.flatMap fun r => [r.lo.toNat, r.hi.toNat + 1]
  ((0 :: 65536 :: bounds).mergeSort (· ≤ ·)).eraseReps

/-- Adds an interval to those that lead to a state; states stay in the order of appearance. -/
def addPiece (id : Nat) (piece : Interval) :
    List (Nat × List Interval) → List (Nat × List Interval)
  | [] => [(id, [piece])]
  | (s, pieces) :: rest =>
    if s = id then (s, piece :: pieces) :: rest else (s, pieces) :: addPiece id piece rest

/-- The interval on which a state leads to itself, if the units that do so are one interval. -/
def selfLoop (id : Nat) (sets : List (Nat × CharSet)) : Option Interval :=
  match sets.find? (·.1 = id) with
  | some (_, set) =>
    match set.intervals with
    | [only] => some only
    | _ => none
  | none => none

section

variable {κ : Type} [BEq κ] [Hashable κ]

namespace KeyNumbers

/-- The number of a key, which is a new one if the key is new. -/
def number (table : KeyNumbers κ) (limit : Nat) (key : κ) :
    Except Overflow (Nat × KeyNumbers κ) :=
  match table.ids[key]? with
  | some id => .ok (id, table)
  | none =>
    let id := table.keys.size
    if limit ≤ id then .error ⟨id + 1, limit⟩
    else .ok (id, ⟨table.ids.insert key id, table.keys.push key⟩)

def numberAll (table : KeyNumbers κ) (limit : Nat) :
    List κ → Except Overflow (List Nat × KeyNumbers κ)
  | [] => .ok ([], table)
  | key :: rest =>
    match table.number limit key with
    | .error e => .error e
    | .ok (id, table) =>
      match table.numberAll limit rest with
      | .error e => .error e
      | .ok (ids, table) => .ok (id :: ids, table)

end KeyNumbers

namespace Powerset

/-- Follows a key over one unit of every piece and collects the pieces by the state they lead to. -/
def edges (view : Powerset κ) (limit : Nat) (key : κ) (table : KeyNumbers κ)
    (groups : List (Nat × List Interval)) :
    List Nat → Except Overflow (List (Nat × List Interval) × KeyNumbers κ)
  | lo :: hi :: rest =>
    let piece := Interval.ofEnds (UInt16.ofNat lo) (UInt16.ofNat (hi - 1))
    let next := view.after key piece.lo
    if view.dead next then view.edges limit key table groups (hi :: rest)
    else
      match table.number limit next with
      | .error e => .error e
      | .ok (id, table) => view.edges limit key table (addPiece id piece groups) (hi :: rest)
  | _ => .ok (groups, table)

def stateOf (view : Powerset κ) (id : Nat) (key : κ) (groups : List (Nat × List Interval)) :
    TableState :=
  let sets := groups.map fun g => (g.1, CharSet.ofIntervals g.2)
  let edges := sets.map fun g => (Matcher.ofSet g.2, g.1)
  { id := id
    edges := edges
    loop := selfLoop id sets
    single := match edges with
      | [(m, successor)] => m.single?.map fun c => (c, successor)
      | _ => none
    acceptance := view.acceptance key
    resultIds := view.resultIds key }

/-- Works off the keys without a state. At most `limit` keys are ever numbered. -/
def tabulateFrom (view : Powerset κ) (limit : Nat) :
    Nat → KeyNumbers κ → Array TableState → Except Overflow (Array TableState)
  | 0, _, states => .ok states
  | fuel + 1, table, states =>
    match table.keys[states.size]? with
    | none => .ok states
    | some key =>
      match view.edges limit key table [] (pieceBounds (view.nextSets key)) with
      | .error e => .error e
      | .ok (groups, table) =>
        view.tabulateFrom limit fuel table (states.push (view.stateOf states.size key groups))

/-- The table of all keys that the initial ones lead to; entry `i` is the state of the `i`-th
initial key. -/
def tabulate (view : Powerset κ) (initial : List κ) (maxStates : Nat) : Except Overflow Dfa :=
  let limit := min maxStates 32767
  match KeyNumbers.numberAll {} limit initial with
  | .error e => .error e
  | .ok (entries, table) =>
    match view.tabulateFrom limit limit table #[] with
    | .error e => .error e
    | .ok states => .ok ⟨states, entries⟩

end Powerset

end

end UnitRegex
