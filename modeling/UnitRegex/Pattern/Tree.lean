import UnitRegex.Alphabet.CharSet
import UnitRegex.Source.Flags

/-!
Parsed patterns. A choice is a nonempty list of branches, a branch a list of terms, and every term
consumes input, tests the position or holds a choice of its own.
-/

namespace UnitRegex

/-- How often a group repeats; without `max` there is no upper bound. -/
structure Quantifier where
  min : Nat
  max : Option Nat
  greedy : Bool
  deriving DecidableEq

inductive Anchor where
  | caret | dollar | wordBoundary | notWordBoundary
  deriving DecidableEq

/-- How a sequence is read: from left to right or from right to left. -/
inductive Direction where
  | forward | backward
  deriving DecidableEq

mutual

inductive Term where
  | unit (set : CharSet)
  | anchor (kind : Anchor)
  | look (behind negated : Bool) (body : Choice)
  | backReference (group : Nat)
  | group (capture : Option Nat) (repeats : Option Quantifier) (body : Choice)

inductive Branch where
  | nil
  | cons (first : Term) (rest : Branch)

inductive Choice where
  | one (only : Branch)
  | more (first : Branch) (rest : Choice)

end

def Branch.ofList : List Term → Branch
  | [] => .nil
  | t :: rest => .cons t (ofList rest)

structure Pattern where
  body : Choice
  flags : Flags
  /-- Number of capture groups, the whole match included. -/
  groupCount : Nat
  groupNames : List (String × Nat)
  /-- Units in front of a match that its look-behinds and multiline anchors may inspect. -/
  context : Nat

/-- The whole pattern as capture group 0. -/
def Pattern.root (p : Pattern) : Term := .group (some 0) none p.body

end UnitRegex
