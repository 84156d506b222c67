import UnitRegex.Pattern.Tree

/-!
Static facts about pattern trees: which parts can match empty, which capture groups they hold, and
which look-around bodies are plain sequences of sets.
-/

namespace UnitRegex

mutual

/-- Whether a term can match without consuming input. Assertions and back-references count as
empty. -/
def Term.nullable : Term → Bool
  | .unit _ => false
  | .group _ (some q) body => q.min == 0 || body.nullable
  | .group _ none body => body.nullable
  | .anchor _ | .look _ _ _ | .backReference _ => true

def Branch.nullable : Branch → Bool
  | .nil => true
  | .cons t rest => t.nullable && rest.nullable

def Choice.nullable : Choice → Bool
  | .one b => b.nullable
  | .more b rest => b.nullable || rest.nullable

end

/-- The smallest half-open range around two ranges. -/
def spanHull : Option (Nat × Nat) → Option (Nat × Nat) → Option (Nat × Nat)
  | none, r => r
  | r, none => r
  | some r, some s => some (min r.1 s.1, max r.2 s.2)

mutual

/-- The capture numbers inside a term, its own included, as a half-open range. -/
def Term.groupSpan : Term → Option (Nat × Nat)
  | .group (some n) _ body => spanHull (some (n, n + 1)) body.groupSpan
  | .group none _ body => body.groupSpan
  | .look _ _ body => body.groupSpan
  | .unit _ | .anchor _ | .backReference _ => none

def Branch.groupSpan : Branch → Option (Nat × Nat)
  | .nil => none
  | .cons t rest => spanHull t.groupSpan rest.groupSpan

def Choice.groupSpan : Choice → Option (Nat × Nat)
  | .one b => b.groupSpan
  | .more b rest => spanHull b.groupSpan rest.groupSpan

end

mutual

/-- The sets of a term that is a set or a bare group around a plain sequence. -/
def Term.plain? : Term → Option (List CharSet)
  | .unit set => some [set]
  | .group none none body =>
    match body.plain? with
    | some [only] => some only
    | _ => none
  | _ => none

def Branch.plain? : Branch → Option (List CharSet)
  | .nil => some []
  | .cons t rest =>
    match t.plain?, rest.plain? with
    | some a, some b => some (a ++ b)
    | _, _ => none

/-- The branches of a choice as sequences of sets, if they are nothing else. -/
def Choice.plain? : Choice → Option (List (List CharSet))
  | .one b => b.plain?.map ([·])
  | .more b rest =>
    match b.plain?, rest.plain? with
    | some a, some more => some (a :: more)
    | _, _ => none

end

/-- The body of a look-behind that is one plain sequence. -/
def Choice.soleSequence? (body : Choice) : Option (List CharSet) :=
  match body.plain? with
  | some [only] => some only
  | _ => none

mutual

def Term.hasBackReference : Term → Bool
  | .backReference _ => true
  | .group _ _ body | .look _ _ body => body.hasBackReference
  | .unit _ | .anchor _ => false

def Branch.hasBackReference : Branch → Bool
  | .nil => false
  | .cons t rest => t.hasBackReference || rest.hasBackReference

def Choice.hasBackReference : Choice → Bool
  | .one b => b.hasBackReference
  | .more b rest => b.hasBackReference || rest.hasBackReference

end

def Pattern.hasBackReference (p : Pattern) : Bool := p.body.hasBackReference

end UnitRegex
