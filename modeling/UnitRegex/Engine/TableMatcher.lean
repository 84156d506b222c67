import UnitRegex.Automaton.Build
import UnitRegex.Engine.Event
import UnitRegex.Paths.PathTable
import UnitRegex.Search.SearchResult
import UnitRegex.Search.Threads
import UnitRegex.Table.BackwardSubset
import UnitRegex.Table.ForwardSubset

/-!
Matching by tables. The forward table finds the end of a match. Its captures follow from the table
of paths, if the pattern has one, or else its start comes from the backward table and the captures
from a simulation of the automaton on the stretch in between.
-/

namespace UnitRegex

structure TableMatcher where
  nfa : Nfa
  forward : Dfa
  /-- Absent if the table of paths is there, or if the pattern looks around. -/
  backward : Option Dfa
  paths : Option PathTable
  sticky : Bool

/-- A construction that reports events, also those before a refusal. -/
abbrev Construction := ExceptT Refusal (StateM (List Event))

namespace Construction

def report (e : Event) : Construction Unit := modify (· ++ [e])

def ofExcept {ε α : Type} (wrap : ε → Refusal) : Except ε α → Construction α
  | .ok a => pure a
  | .error e => throw (wrap e)

end Construction

namespace TableMatcher

def buildPaths (nfa : Nfa) (config : Config) : Construction (Option PathTable) :=
  match PathTable.build nfa config with
  | .error overflow => do
    Construction.report (.pathTableAbandoned overflow.states)
    return none
  | .ok none => return none
  | .ok (some paths) => do
    Construction.report (.pathTable paths.results.size)
    return some paths

def buildBackward (p : NumberedPattern) (config : Config) : Construction Dfa := do
  let nfa ← .ofExcept id (Nfa.build p config .backward)
  let dfa ← .ofExcept .tooManyStates (nfa.backwardTable config.tableLimit)
  Construction.report (.backwardTable dfa.size)
  return dfa

def build (p : Pattern) (config : Config) : Construction TableMatcher := do
  let p ← .ofExcept id (NumberedPattern.number { p with })
  let nfa ← .ofExcept id (Nfa.build p config .forward)
  let forward ← .ofExcept .tooManyStates (nfa.forwardTable config.tableLimit)
  Construction.report (.forwardTable forward.size nfa.size)
  let paths ← if 1 < p.groupCount then buildPaths nfa config else pure none
  let backward ←
    if paths.isNone && nfa.lookBehinds.isEmpty && nfa.lookAheads.isEmpty then
      some <$> buildBackward p config
    else pure none
  return ⟨nfa, forward, backward, paths, p.flags.sticky⟩

/-- The start of the match that ends at `stop`, where it is known without the captures. -/
def startOf? (m : TableMatcher) (text : Text) (stop start : Nat) : Option Nat :=
  if m.sticky then some start
  else
    m.backward.bind fun dfa =>
      dfa.firstStart? text (dfa.entry (BackwardSubset.entryFor stop text.size)) stop start

/-- Simulates the automaton in front of `stop`. -/
def simulate (m : TableMatcher) (text : Text) (start stop : Nat) (anchored : Bool) : SearchResult :=
  match m.nfa.findSlots text start stop anchored with
  | some slots => ⟨slots⟩
  | none => .noMatch

/-- The bounds of the leftmost match from `start` on that ends at `stop`. -/
def capture (m : TableMatcher) (text : Text) (start stop : Nat) : SearchResult :=
  match m.startOf? text stop start with
  | some first =>
    if m.nfa.groupCount ≤ 1 then .ofBounds first stop m.nfa.groupCount
    else m.simulate text first stop true
  | none => m.simulate text start stop false

/-- The leftmost match from `start` on. The walk begins as far in front of it as the pattern may
look behind. -/
def find (m : TableMatcher) (text : Text) (start : Nat) : SearchResult :=
  let context := m.nfa.context
  let entry := m.forward.entry (ForwardSubset.entryFor context m.sticky start)
  match m.forward.lastEnd? text entry (start - min start context) with
  | none => .noMatch
  | some stop =>
    match m.paths.bind (·.lookUp? text stop start) with
    | some result => result
    | none => m.capture text start stop

end TableMatcher

end UnitRegex
