import UnitRegex.Pattern.Tree

/-!
Nondeterministic automata. States are numbered, and the order of the targets of a split is their
priority, which is what leftmost-first matching needs beyond the language of the automaton.
-/

namespace UnitRegex

/-- A condition on the position that consumes nothing. -/
inductive Guard where
  /-- The start of the input. -/
  | caret
  /-- The end of the input. -/
  | dollar
  /-- The units in front of the position match a look-behind body. -/
  | behind (body : Nat) (negated : Bool)
  /-- The units from the position on match a branch of a look-ahead body. -/
  | ahead (body : Nat) (negated : Bool)
  deriving DecidableEq

inductive NfaState where
  | unit (set : CharSet) (next : Nat)
  /-- A choice without input, highest priority first. -/
  | split (targets : List Nat)
  | assert (guard : Guard) (next : Nat)
  | save (slot next : Nat)
  /-- Unsets the capture groups from `lo` up to `hi` before an iteration of a loop. -/
  | unset (lo hi next : Nat)
  | reset (counter next : Nat)
  /-- The head of a counted loop. -/
  | loop (counter min : Nat) (max : Option Nat) (greedy : Bool) (body exit : Nat)
  /-- Counts a finished iteration, up to `limit`. -/
  | increment (counter limit next : Nat)
  | accept
  deriving DecidableEq

namespace NfaState

/-- Successors in order of priority. -/
def successors : NfaState → List Nat
  | unit _ next | assert _ next | save _ next | unset _ _ next | reset _ next
  | increment _ _ next => [next]
  | loop _ _ _ _ body exit => [body, exit]
  | split targets => targets
  | accept => []

/-- Renames the successors that are reached without input. -/
def mapEpsilon (f : Nat → Nat) : NfaState → NfaState
  | unit set next => unit set next
  | split targets => split (targets.map f)
  | assert guard next => assert guard (f next)
  | save slot next => save slot (f next)
  | unset lo hi next => unset lo hi (f next)
  | reset counter next => reset counter (f next)
  | loop counter min max greedy body exit =>
    loop counter min max greedy (f body) (f exit)
  | increment counter limit next => increment counter limit (f next)
  | accept => accept

def isAssert : NfaState → Bool
  | assert _ _ => true
  | _ => false

theorem unit_or (s : NfaState) :
    (∃ set next, s = unit set next) ∨ ∀ set next, s ≠ unit set next := by
  cases s <;> simp

theorem assert_or (s : NfaState) :
    (∃ guard next, s = assert guard next) ∨ ∀ guard next, s ≠ assert guard next := by
  cases s <;> simp

end NfaState

/-- The ways on from the head of a counted loop whose counter reads `count`, highest priority first,
each with the value it sets the counter to. Another iteration is possible below `max`, leaving from
`min` on; leaving resets the counter. -/
def countChoices (min : Nat) (max : Option Nat) (greedy : Bool) (body exit count : Nat) :
    List (Nat × Nat) :=
  let again := if max.all (count < ·) then [(body, count)] else []
  let leave := if min ≤ count then [(exit, 0)] else []
  if greedy then again ++ leave else leave ++ again

/-- A state with the id of the pattern node it was made for. -/
structure LabeledState where
  state : NfaState
  origin : Nat

structure Nfa where
  nodes : Array LabeledState
  /-- The first state of the pattern itself. -/
  start : Nat
  /-- Entries that skip a number of units and then have to match. -/
  anchored : List Nat
  /-- Entries that skip a number of units and then search. -/
  unanchored : List Nat
  /-- Bodies of the look-behinds. -/
  lookBehinds : List (List CharSet)
  /-- Branches of the bodies of the look-aheads. -/
  lookAheads : List (List (List CharSet))
  counters : Nat
  groupCount : Nat
  /-- An automaton for the backward direction has no captures. -/
  direction : Direction

namespace Nfa

/-- The state with a number; there is no way on from one that does not exist. -/
def state (nfa : Nfa) (id : Nat) : NfaState :=
  match nfa.nodes[id]? with
  | some n => n.state
  | none => .split []

def size (nfa : Nfa) : Nat := nfa.nodes.size

def successors (nfa : Nfa) (id : Nat) : List Nat := (nfa.state id).successors

/-- Greatest number of units that an entry skips. -/
def context (nfa : Nfa) : Nat := nfa.anchored.length - 1

def hasState (nfa : Nfa) (p : NfaState → Bool) : Bool := nfa.nodes.any fun n => p n.state

end Nfa

end UnitRegex
