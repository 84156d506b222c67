import UnitRegex.Automaton.Counts
import UnitRegex.Search.Explore
import UnitRegex.Table.Subset
import Std.Data.HashSet

/-!
The subsets that the backward table is made of. Starts of matches are only compared by position, so
a subset holds its threads without an order of priority, sorted.
-/

namespace UnitRegex

structure BackwardSubset where
  /-- States in front of a unit with their loop counters. -/
  threads : List (Nat × List Nat)
  /-- Whether a match starts here. -/
  starts : Bool
  /-- Whether one does if this is the start of the input. -/
  startsAtEdge : Bool
  deriving DecidableEq, Hashable

/-- A place that is reached without reading a unit, and whether the start of the input was asserted
on the way. -/
structure BackwardPlace where
  state : Nat
  caret : Bool
  counts : List Nat
  deriving DecidableEq, Hashable

namespace BackwardPlace

def count (p : BackwardPlace) (counter : Nat) : Nat := p.counts[counter]?.getD 0

def setCount (p : BackwardPlace) (counter value : Nat) : BackwardPlace :=
  { p with counts := p.counts.set counter value }

def successors (nfa : Nfa) (atEnd : Bool) (p : BackwardPlace) : List BackwardPlace :=
  match nfa.state p.state with
  | .unit _ _ | .accept => []
  | .split targets => targets.map fun t => { p with state := t }
  | .assert .caret next => [{ p with state := next, caret := true }]
  | .assert .dollar next => if atEnd then [{ p with state := next }] else []
  | .assert _ _ => []
  | .save _ next | .unset _ _ next => [{ p with state := next }]
  | .reset counter next => [{ p.setCount counter 0 with state := next }]
  | .increment counter limit next =>
    [{ p.setCount counter (min (p.count counter + 1) limit) with state := next }]
  | .loop counter min max greedy body exit =>
    (countChoices min max greedy body exit (p.count counter)).map fun choice =>
      { p.setCount counter choice.2 with state := choice.1 }

variable {nfa : Nfa} {atEnd : Bool} {p q : BackwardPlace}

/-- Where there is no guard, a place goes on wherever its state does. -/
theorem successors_of_not_assert (h : ∀ guard next, nfa.state p.state ≠ .assert guard next) :
    p.successors nfa atEnd =
      (nfa.epsilon (p.state, p.counts)).map fun b => { p with state := b.1, counts := b.2 } := by
  unfold successors Nfa.epsilon
  cases hs : nfa.state p.state
  case assert guard next => exact absurd hs (h guard next)
  all_goals simp [setCount, count]

/-- The successors of a place are behind its state. -/
theorem mem_epsilon_of_mem_successors (h : q ∈ p.successors nfa atEnd) :
    (q.state, q.counts) ∈ nfa.epsilon (p.state, p.counts) := by
  rcases (nfa.state p.state).assert_or with ⟨guard, next, hs⟩ | hassert
  · simp only [Nfa.epsilon, hs, List.mem_singleton]
    cases guard <;> simp only [successors, hs] at h
    case caret =>
      obtain rfl := List.mem_singleton.mp h
      rfl
    case dollar =>
      obtain ⟨-, hq⟩ := List.mem_ite_nil_right.mp h
      obtain rfl := List.mem_singleton.mp hq
      rfl
    all_goals simp at h
  · rw [successors_of_not_assert hassert] at h
    obtain ⟨b, hb, rfl⟩ := List.mem_map.mp h
    exact hb

/-- There are finitely many places with such counters. -/
theorem finitely (nfa : Nfa) (bound : Nat) :
    Finitely fun p : BackwardPlace => p.state < nfa.size ∧ BoundedCounts bound p.counts := by
  have hparts := ((Finitely.lt nfa.size).prod (.prod .bool (.boundedCounts bound))).image
    fun parts => (⟨parts.1, parts.2.1, parts.2.2⟩ : BackwardPlace)
  exact hparts.mono fun p hp => ⟨(p.state, p.caret, p.counts), ⟨hp.1, trivial, hp.2⟩, rfl⟩

end BackwardPlace

namespace BackwardSubset

/-- Orders lists of numbers like words in a dictionary. -/
def countsLe : List Nat → List Nat → Bool
  | [], _ => true
  | _ :: _, [] => false
  | a :: as, b :: bs => a < b || (a == b && countsLe as bs)

def threadLe (a b : Nat × List Nat) : Bool := a.1 < b.1 || (a.1 == b.1 && countsLe a.2 b.2)

def empty : BackwardSubset := ⟨[], false, false⟩

/-- Notes a thread or a start that is found at a place. -/
def visit (nfa : Nfa) (atEnd : Bool) (p : BackwardPlace)
    (found : Std.HashSet BackwardPlace × BackwardSubset) :
    Visit BackwardPlace (Std.HashSet BackwardPlace × BackwardSubset) :=
  let (seen, key) := found
  if seen.contains p then .go [] (seen, key)
  else
    let seen := seen.insert p
    match nfa.state p.state with
    | .unit _ _ =>
      -- Nothing can be read to the left of the start of the input.
      let key := if p.caret then key else { key with threads := (p.state, p.counts) :: key.threads }
      .go [] (seen, key)
    | .accept =>
      let key := if p.caret then { key with startsAtEdge := true } else { key with starts := true }
      .go [] (seen, key)
    | _ => .go (p.successors nfa atEnd) (seen, key)

theorem visit_eq_go {nfa : Nfa} {atEnd : Bool} {p : BackwardPlace} {next : List BackwardPlace}
    {found found' : Std.HashSet BackwardPlace × BackwardSubset}
    (h : visit nfa atEnd p found = .go next found') :
    (next = [] ∨ next = p.successors nfa atEnd ∧ p ∉ found.1 ∧ p ∈ found'.1) ∧
      ∀ q ∈ found.1, q ∈ found'.1 := by
  obtain ⟨seen, key⟩ := found
  simp only [visit] at h
  split at h
  · cases h
    exact ⟨.inl rfl, fun q hq => hq⟩
  · rename_i hfresh
    have hset : ∀ q ∈ seen, q ∈ seen.insert p := fun q hq => Std.HashSet.mem_insert.mpr (.inr hq)
    split at h <;> cases h
    · exact ⟨.inl rfl, hset⟩
    · exact ⟨.inl rfl, hset⟩
    · exact ⟨.inr ⟨rfl, hfresh, Std.HashSet.mem_insert_self⟩, hset⟩

instance (nfa : Nfa) (atEnd : Bool) : Exhausts (visit nfa atEnd) := by
  refine exhausts_of_keys id (fun found p => p ∈ found.1) (BackwardPlace.successors nfa atEnd)
    (fun p f next f' => visit_eq_go) fun stack => ?_
  obtain ⟨bound, hlimit, hstack⟩ := nfa.exists_bound (stack.map (·.counts))
  refine ⟨fun p => BoundedCounts bound p.counts, _, BackwardPlace.finitely nfa bound,
    fun p hp => hstack _ (List.mem_map_of_mem hp), fun p hp q hq => ?_⟩
  have hbehind := BackwardPlace.mem_epsilon_of_mem_successors hq
  exact ⟨Nfa.bounded_of_mem_epsilon hlimit hp hbehind, Nfa.lt_size_of_mem_epsilon hbehind, hp⟩

/-- The subset that some places lead to. -/
def ofPlaces (nfa : Nfa) (places : List BackwardPlace) (atEnd : Bool) : BackwardSubset :=
  let (_, key) := explore (visit nfa atEnd) places (∅, empty)
  { key with threads := (key.threads.mergeSort threadLe).eraseReps }

/-- A subset for an end inside the input, and one for the end of the input. -/
def initial (nfa : Nfa) : List BackwardSubset :=
  let first : BackwardPlace := ⟨nfa.start, false, List.replicate nfa.counters 0⟩
  [ofPlaces nfa [first] false, ofPlaces nfa [first] true]

def after (nfa : Nfa) (key : BackwardSubset) (u : CodeUnit) : BackwardSubset :=
  let places := key.threads.filterMap fun t =>
    match nfa.state t.1 with
    | .unit set next =>
      if set.contains u then some (⟨next, false, t.2⟩ : BackwardPlace) else none
    | _ => none
  ofPlaces nfa places false

/-- The sets that the next unit is tested against. -/
def nextSets (nfa : Nfa) (key : BackwardSubset) : List CharSet :=
  key.threads.filterMap fun t =>
    match nfa.state t.1 with
    | .unit set _ => some set
    | _ => none

def powerset (nfa : Nfa) : Powerset BackwardSubset :=
  { nextSets := nextSets nfa
    after := after nfa
    dead := fun key => key.threads.isEmpty && !key.starts && !key.startsAtEdge
    acceptance := fun key => { anywhere := key.starts, atEdge := key.startsAtEdge }
    resultIds := fun _ => {} }

/-- The number of the initial subset for a walk from the end of a match. -/
def entryFor (stop length : Nat) : Nat := if stop = length then 1 else 0

end BackwardSubset

/-- The table that finds the starts of matches. -/
def Nfa.backwardTable (nfa : Nfa) (maxStates : Nat) : Except Overflow Dfa :=
  (BackwardSubset.powerset nfa).tabulate (BackwardSubset.initial nfa) maxStates

end UnitRegex
