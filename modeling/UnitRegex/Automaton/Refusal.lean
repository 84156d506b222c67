/-!
Reasons for not building an automaton. None of them says that a pattern is wrong: a refused pattern
is matched by backtracking.
-/

namespace UnitRegex

/-- A construct the automata do not represent. -/
inductive Construct where
  | backReference
  | wordBoundary
  | multilineDollar
  | context (units : Nat)
  | lookBehindShape
  | lookAheadShape
  | lookAheadBranches (count : Nat)
  | lookAheadLength (units : Nat)
  | countedEmptyGroup (min : Nat) (max : Option Nat)
  | backwardLookBehind
  | backwardLookAhead
  | backwardCaret
  | size (limit : Nat)
  deriving DecidableEq

def Construct.description : Construct → String
  | backReference => "back-reference"
  | wordBoundary => "word boundary"
  | multilineDollar => "multiline $"
  | context k => "look-behind context of " ++ toString k ++ " characters"
  | lookBehindShape => "look-behind that is not a plain character sequence"
  | lookAheadShape => "look-ahead that is not made of plain character sequences"
  | lookAheadBranches n => "look-ahead with " ++ toString n ++ " alternatives"
  | lookAheadLength n => "look-ahead of length " ++ toString n
  | countedEmptyGroup low high =>
    let high := match high with
      | some m => "Some(" ++ toString m ++ ")"
      | none => "None"
    "counted quantifier \x7b" ++ toString low ++ "," ++ high ++
      "\x7d over a group that can match empty"
  | backwardLookBehind => "look-behind in a backward automaton"
  | backwardLookAhead => "look-ahead in a backward automaton"
  | backwardCaret => "multiline ^ in a backward automaton"
  | size limit => "NFA exceeds " ++ toString limit ++ " states"

/-- A table that needs more states than allowed, with the number at which that showed. -/
structure Overflow where
  states : Nat
  limit : Nat
  deriving DecidableEq

inductive Refusal where
  | unsupported (construct : Construct)
  | tooManyStates (overflow : Overflow)
  /-- The pattern was given its ids before; `slot` is the first node found with one. -/
  | alreadyNumbered (slot id : Nat)
  | notNumbered
  deriving DecidableEq

def Refusal.message : Refusal → String
  | unsupported c => "unsupported construct: " ++ c.description
  | tooManyStates o =>
    "DFA state limit exceeded: " ++ toString o.states ++ " states (max: " ++ toString o.limit ++ ")"
  | alreadyNumbered slot id =>
    "internal invariant violated: node " ++ toString slot ++ " already has id " ++ toString id
  | notNumbered =>
    "internal invariant violated: NFA requested for an AST that was never indexed"

end UnitRegex
