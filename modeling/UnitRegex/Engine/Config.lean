/-!
Limits of an engine. Apart from the capacity of the cache they only decide how a pattern is
matched: one that goes past a limit of the automata is matched by backtracking.
-/

namespace UnitRegex

structure Config where
  /-- Compiled patterns and syntax errors that are kept. -/
  cacheCapacity : Nat := 64
  /-- States of one table. -/
  maxTableStates : Nat := 2400
  /-- States of one nondeterministic automaton. -/
  maxAutomatonStates : Nat := 10000
  /-- Greatest repetition count for which a group is copied instead of counted. -/
  maxUnroll : Nat := 64
  maxLookBehind : Nat := 8
  maxLookAhead : Nat := 8
  /-- Accepting paths for which capture offsets are worked out ahead of time. -/
  maxTracePaths : Nat := 64
  deriving DecidableEq

/-- Ids of table states have fifteen bits. -/
def Config.tableLimit (c : Config) : Nat := min c.maxTableStates 32767

/-- Ids of paths are bytes, one of which is reserved. -/
def Config.pathLimit (c : Config) : Nat := min c.maxTracePaths 254

end UnitRegex
