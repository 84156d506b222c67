import UnitRegex.Automaton.Acyclic
import UnitRegex.Search.SearchResult

/-!
Enumeration of the paths through an acyclic automaton that end in acceptance. Each path knows the
sets it reads and the capture slots it leaves, so it stands for all matches along it.
-/

namespace UnitRegex

structure Path where
  state : Nat
  /-- The sets read so far, the last one first. -/
  sets : List CharSet
  /-- The captures, in numbers of sets read. -/
  slots : Slots
  /-- Whether the path asserts the start of the input. -/
  anchored : Bool

namespace Path

def length (p : Path) : Nat := p.sets.length

/-- The ways to go on, highest priority first; `none` at a state that reads more of the text than a
path knows. -/
def extend? (nfa : Nfa) (p : Path) : Option (List Path) :=
  match nfa.state p.state with
  | .unit set next => some [{ p with state := next, sets := set :: p.sets }]
  | .split targets => some (targets.map fun t => { p with state := t })
  | .assert .caret next =>
    -- Behind a unit the start of the input cannot be.
    some (if p.sets.isEmpty then [{ p with state := next, anchored := true }] else [])
  | .assert _ _ | .reset _ _ | .loop _ _ _ _ _ _ | .increment _ _ _ => none
  | .save slot next =>
    some [{ p with state := next, slots := p.slots.setIfInBounds slot p.length }]
  | .unset lo hi next =>
    some [{ p with state := next, slots := p.slots.unsetGroups lo hi }]
  | .accept => some []

end Path

namespace Nfa

/-- Follows the pending paths in order of priority. Gives up after `budget` steps and on more than
`limit` accepted paths. -/
def acceptAlong (nfa : Nfa) (limit : Nat) : Nat → List Path → List Path → Option (List Path)
  | _, [], found => some found.reverse
  | 0, _ :: _, _ => none
  | budget + 1, p :: stack, found =>
    if nfa.state p.state = .accept then
      if found.length = limit then none else nfa.acceptAlong limit budget stack (p :: found)
    else
      match p.extend? nfa with
      | none => none
      | some paths => nfa.acceptAlong limit budget (paths ++ stack) found

/-- All accepting paths from the start of the pattern, highest priority first, unless the automaton
loops, looks around, counts, or has more than `limit` of them. -/
def allPaths? (nfa : Nfa) (limit : Nat) : Option (List Path) :=
  if nfa.lookBehinds.isEmpty && nfa.acyclicFrom nfa.start then
    nfa.acceptAlong limit ((limit + 1) * (nfa.size + 1))
      [⟨nfa.start, [], Slots.unset nfa.groupCount, false⟩] []
  else none

end Nfa

end UnitRegex
