/-! Properties of characters as sorted tables of closed ranges of code points. -/

namespace UnitRegex

/-- Whether a code point lies in one of some sorted closed ranges. -/
def inRanges (n : Nat) : List (Nat × Nat) → Bool
  | [] => false
  | r :: rest => if n < r.1 then false else n ≤ r.2 || inRanges n rest

end UnitRegex
