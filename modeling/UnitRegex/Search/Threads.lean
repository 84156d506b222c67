import UnitRegex.Search.Following

/-!
Simulation of an automaton by threads in order of priority. A thread that accepts cuts off all
threads behind it, which finds the leftmost match of highest priority in one pass over the text.
-/

namespace UnitRegex

namespace Frontier

/-- Follows a thread up to where it needs a unit or accepts. -/
def add (nfa : Nfa) (text : Text) (cursor : Nat) (f : Frontier) (t : Thread) : Frontier :=
  (explore (Following.visit nfa text cursor) [.follow t.state] ⟨f, t.counts, t.slots⟩).frontier

/-- Lets the threads read the unit at a position, which has to lie in front of `stop`. A thread that
accepts replaces the match known before, and the threads behind it are dropped. -/
def advance (nfa : Nfa) (text : Text) (stop cursor : Nat) :
    List Thread → Frontier → Option Slots → Frontier × Option Slots
  | [], next, found => (next, found)
  | t :: rest, next, found =>
    match nfa.state t.state with
    | .accept => (next, some t.slots)
    | .unit set target =>
      if cursor < stop && text[cursor]?.any (set.contains ·) then
        let next := next.add nfa text (cursor + 1) { t with state := target }
        advance nfa text stop cursor rest next found
      else advance nfa text stop cursor rest next found
    | _ => advance nfa text stop cursor rest next found

end Frontier

namespace Nfa

/-- Runs the threads from `cursor` on. As long as nothing is found, every position starts an attempt
of lowest priority, and only the position `start` if the search is anchored. -/
def runThreads (nfa : Nfa) (text : Text) (start stop : Nat) (anchored : Bool) (cursor : Nat)
    (current spare : Frontier) (found : Option Slots) : Option Slots :=
  if current.threads.isEmpty && (found.isSome || (anchored && start < cursor)) then found
  else
    let current :=
      if found.isNone && (!anchored || cursor == start) then
        current.add nfa text cursor (Thread.initial nfa)
      else current
    let (next, found) :=
      Frontier.advance nfa text stop cursor current.threads.reverse spare.clear found
    if cursor < stop then
      nfa.runThreads text start stop anchored (cursor + 1) next current found
    else found
termination_by stop - cursor

/-- The capture slots of the leftmost match of highest priority that starts at `start` or behind it
and reads no unit from `stop` on. Look-aheads still see those units. -/
def findSlots (nfa : Nfa) (text : Text) (start stop : Nat) (anchored : Bool) :
    Option Slots :=
  nfa.runThreads text start (min stop text.size) anchored start (.empty nfa) (.empty nfa) none

end Nfa

end UnitRegex
