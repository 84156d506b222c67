import UnitRegex.Proofs.Automaton.Steps
import UnitRegex.Proofs.Matching.Yields

/-!
Local runs of an automaton. Only the configurations in some stretch of states take steps, and each
is replaced by the configurations it leads to, in the order in which a depth-first search meets
them. Such a replacement does not change what the search finds first.
-/

namespace UnitRegex

/-- What the meaning of a pattern knows of a configuration. -/
def Configuration.matchState (x : Configuration) : MatchState := ⟨x.cursor, x.thread.slots⟩

namespace Nfa

/-- Configurations lead to others by the steps of states from `lo` up to `hi`. -/
inductive Unfolds (nfa : Nfa) (text : Text) (lo hi : Nat) :
    List Configuration → List Configuration → Prop
  | nil : Unfolds nfa text lo hi [] []
  | leave (x : Configuration) {rest after : List Configuration}
    (hrest : Unfolds nfa text lo hi rest after) : Unfolds nfa text lo hi (x :: rest) (x :: after)
  | step {x : Configuration} {rest ways after : List Configuration} (hlo : lo ≤ x.state)
    (hhi : x.state < hi) (haccept : nfa.state x.state ≠ .accept)
    (hways : Unfolds nfa text lo hi (nfa.steps text text.size x) ways)
    (hrest : Unfolds nfa text lo hi rest after) :
    Unfolds nfa text lo hi (x :: rest) (ways ++ after)

variable {nfa : Nfa} {text : Text} {lo hi : Nat}

namespace Unfolds

theorem refl (l : List Configuration) : nfa.Unfolds text lo hi l l := by
  induction l with
  | nil => exact .nil
  | cons x rest ih => exact .leave x ih

theorem append {a a' b b' : List Configuration} (ha : nfa.Unfolds text lo hi a a')
    (hb : nfa.Unfolds text lo hi b b') : nfa.Unfolds text lo hi (a ++ b) (a' ++ b') := by
  induction ha with
  | nil => exact hb
  | leave x _ ih => exact .leave x ih
  | step hlo hhi haccept hways _ _ ih =>
    rw [List.append_assoc]
    exact .step hlo hhi haccept hways ih

/-- Two lists side by side lead to two lists side by side. -/
theorem split {a b c : List Configuration} (h : nfa.Unfolds text lo hi (a ++ b) c) :
    ∃ a' b', c = a' ++ b' ∧ nfa.Unfolds text lo hi a a' ∧ nfa.Unfolds text lo hi b b' := by
  induction a generalizing c with
  | nil => exact ⟨[], c, rfl, .nil, h⟩
  | cons x rest ih =>
    cases h with
    | leave _ hrest =>
      obtain ⟨a', b', rfl, ha, hb⟩ := ih hrest
      exact ⟨x :: a', b', rfl, .leave x ha, hb⟩
    | step hlo hhi haccept hways hrest =>
      obtain ⟨a', b', rfl, ha, hb⟩ := ih hrest
      exact ⟨_ ++ a', b', (List.append_assoc _ _ _).symm, .step hlo hhi haccept hways ha, hb⟩

theorem trans {a b c : List Configuration} (hab : nfa.Unfolds text lo hi a b)
    (hbc : nfa.Unfolds text lo hi b c) : nfa.Unfolds text lo hi a c := by
  induction hab generalizing c with
  | nil => exact hbc
  | leave x _ ih =>
    obtain ⟨c₁, c₂, rfl, h₁, h₂⟩ := split (a := [x]) hbc
    exact append (a := [x]) h₁ (ih h₂)
  | step hlo hhi haccept _ _ ihways ih =>
    obtain ⟨c₁, c₂, rfl, h₁, h₂⟩ := split hbc
    exact .step hlo hhi haccept (ihways h₁) (ih h₂)

theorem mono {lo' hi' : Nat} {a b : List Configuration} (h : nfa.Unfolds text lo' hi' a b)
    (hlo : lo ≤ lo') (hhi : hi' ≤ hi) : nfa.Unfolds text lo hi a b := by
  induction h with
  | nil => exact .nil
  | leave x _ ih => exact .leave x ih
  | step hlo' hhi' haccept _ _ ihways ih =>
    exact .step (by omega) (by omega) haccept ihways ih

theorem of_steps {x : Configuration} (hlo : lo ≤ x.state) (hhi : x.state < hi)
    (haccept : nfa.state x.state ≠ .accept) :
    nfa.Unfolds text lo hi [x] (nfa.steps text text.size x) := by
  have h : nfa.Unfolds text lo hi [x] (nfa.steps text text.size x ++ []) :=
    .step hlo hhi haccept (.refl _) .nil
  rwa [List.append_nil] at h

/-- Steps never lead back in the text. -/
theorem left_le {a b : List Configuration} {n : Nat} (h : nfa.Unfolds text lo hi a b)
    (ha : ∀ x ∈ a, text.left nfa.direction x.cursor ≤ n) :
    ∀ y ∈ b, text.left nfa.direction y.cursor ≤ n := by
  induction h with
  | nil => simp
  | leave x _ ih =>
    intro y hy
    rcases List.mem_cons.mp hy with rfl | hy
    · exact ha y (by simp)
    · exact ih (fun z hz => ha z (by simp [hz])) y hy
  | step _ _ _ _ _ ihways ih =>
    intro y hy
    rcases List.mem_append.mp hy with hy | hy
    · refine ihways (fun z hz => ?_) y hy
      have hx := ha _ List.mem_cons_self
      rcases mem_steps hz with ⟨_, _, _, _, hread, _, _⟩ | ⟨hcursor, _⟩
      · exact Nat.le_trans (Nat.le_of_lt (Text.left_lt_of_read hread)) hx
      · rw [hcursor]
        exact hx
    · exact ih (fun z hz => ha z (by simp [hz])) y hy

/-- What a depth-first search finds first does not change. -/
theorem findSome?_first {a b : List Configuration} (h : nfa.Grounded)
    (hab : nfa.Unfolds text lo hi a b) :
    a.findSome? (nfa.first h text text.size) = b.findSome? (nfa.first h text text.size) := by
  induction hab with
  | nil => rfl
  | leave x _ ih => rw [List.findSome?_cons, List.findSome?_cons, ih]
  | step _ _ haccept _ _ ihways ih =>
    rw [List.findSome?_cons, List.findSome?_append, first_eq_findSome? h haccept, ihways, ih]
    cases List.findSome? _ _ <;> rfl

end Unfolds

theorem unfolding (nfa : Nfa) (text : Text) (lo hi : Nat) :
    Unfolding (nfa.Unfolds text lo hi) :=
  ⟨Unfolds.refl, Unfolds.trans, Unfolds.append⟩

/-- Some configurations lead to ones with a property that stand for a list of states. -/
abbrev Yields (nfa : Nfa) (text : Text) (lo hi : Nat) (Q : Configuration → Prop)
    (before : List Configuration) (states : List MatchState) : Prop :=
  UnitRegex.Yields (nfa.Unfolds text lo hi) Configuration.matchState Q before states

theorem yields_of_steps {Q : Configuration → Prop} {x : Configuration}
    {states : List MatchState} (hlo : lo ≤ x.state) (hhi : x.state < hi)
    (haccept : nfa.state x.state ≠ .accept)
    (h : nfa.Yields text lo hi Q (nfa.steps text text.size x) states) :
    nfa.Yields text lo hi Q [x] states :=
  (nfa.unfolding text lo hi).unfold (.of_steps hlo hhi haccept) h

end Nfa

end UnitRegex
