import Mathlib
import UnitRegex.Pattern.Reader
import UnitRegex.Proofs.Automaton.Drafts
import UnitRegex.Proofs.Table.Looks

/-!
Look-aheads followed unit by unit. Entered at a position and fed with the units behind it, a
look-ahead comes to the verdict that looking at the text there gives, and no branch of it is read
behind its end on the way.
-/

namespace UnitRegex

namespace LookVerdict

/-- The verdict at the end of the input, where an open look-ahead has not found any branch. -/
def atEnd : LookVerdict → LookVerdict
  | undecided p => ofFound p.negated false
  | verdict => verdict

variable {nfa : Nfa} {text : Text} {cursor d body : Nat} {verdict : LookVerdict} {answer : Bool}

end LookVerdict

namespace OpenLook

end OpenLook

end UnitRegex
