import UnitRegex.Automaton.Graph

/-!
Search for cycles among the states reachable from one state, on an explicit stack. A state is open
while the states behind it are explored, and meeting an open state means that it lies on a cycle.
-/

namespace UnitRegex

inductive Color where
  | fresh | opened | closed
  deriving DecidableEq

def freshCount (marks : Array Color) : Nat := marks.countP (· = .fresh)

theorem freshCount_set_le (marks : Array Color) (i : Nat) (m : Color) (hm : m ≠ .fresh) :
    freshCount (marks.setIfInBounds i m) ≤ freshCount marks := by
  unfold freshCount Array.setIfInBounds
  split
  · rw [Array.countP_set]
    simp only [decide_eq_true_eq, if_neg hm]
    omega
  · exact Nat.le_refl _

theorem freshCount_set_lt (marks : Array Color) (i : Nat) (m : Color) (hm : m ≠ .fresh)
    (hi : marks[i]? = some .fresh) :
    freshCount (marks.setIfInBounds i m) < freshCount marks := by
  obtain ⟨hlt, hget⟩ := Array.getElem?_eq_some_iff.mp hi
  have hpos : 0 < freshCount marks := by
    unfold freshCount
    rw [Array.countP_pos_iff]
    exact ⟨.fresh, hget ▸ Array.getElem_mem hlt, by simp⟩
  unfold freshCount Array.setIfInBounds at *
  rw [dif_pos hlt, Array.countP_set, hget]
  simp only [decide_eq_true_eq, if_true, if_neg hm]
  omega

/-- Whether the pending visits meet no open state. A visit is a state, and whether the states behind
it are done; the last successor of a state is visited first. -/
def Nfa.acyclicAlong (nfa : Nfa) (marks : Array Color) : List (Nat × Bool) → Bool
  | [] => true
  | (s, true) :: stack => nfa.acyclicAlong (marks.setIfInBounds s .closed) stack
  | (s, false) :: stack =>
    match _fresh : marks[s]? with
    | some .opened => false
    | some .fresh =>
      let entered := marks.setIfInBounds s .opened
      if (nfa.successors s).any fun t => entered[t]? = some .opened then false
      else
        let next := (nfa.successors s).filter fun t => entered[t]? = some .fresh
        nfa.acyclicAlong entered ((next.map (·, false)).reverse ++ (s, true) :: stack)
    | _ => nfa.acyclicAlong marks stack
termination_by stack => (freshCount marks, stack.length)
decreasing_by
  · have := freshCount_set_le marks s .closed (by simp)
    rw [Prod.lex_def]
    simp only [List.length_cons]
    omega
  · exact Prod.Lex.left _ _ (freshCount_set_lt marks s .opened (by simp) _fresh)
  · exact Prod.Lex.right _ (by simp)

/-- Whether no cycle can be reached from a state. -/
def Nfa.acyclicFrom (nfa : Nfa) (start : Nat) : Bool :=
  nfa.acyclicAlong (Array.replicate nfa.size .fresh) [(start, false)]

end UnitRegex
