import UnitRegex.Automaton.Graph
import UnitRegex.Search.Finitely

/-!
Bounds of loop counters. The limits of an automaton bound what its counters can come to, so that a
state is only reached with finitely many of them.
-/

namespace UnitRegex

theorem exists_forall_le (l : List Nat) : ∃ bound, ∀ n ∈ l, n ≤ bound := by
  induction l with
  | nil => exact ⟨0, by simp⟩
  | cons n l ih =>
    obtain ⟨bound, hbound⟩ := ih
    refine ⟨max n bound, fun m hm => ?_⟩
    rcases List.mem_cons.mp hm with rfl | hm
    · exact Nat.le_max_left _ _
    · exact Nat.le_trans (hbound m hm) (Nat.le_max_right _ _)

/-- Counters of which there are not too many, and none of which is too high. -/
def BoundedCounts (bound : Nat) (counts : List Nat) : Prop :=
  counts.length ≤ bound ∧ ∀ count ∈ counts, count ≤ bound

namespace BoundedCounts

variable {bound : Nat} {counts : List Nat}

theorem getD_le (h : BoundedCounts bound counts) (counter : Nat) :
    counts[counter]?.getD 0 ≤ bound := by
  cases hget : counts[counter]? with
  | none => exact Nat.zero_le _
  | some count => exact h.2 count (List.mem_of_getElem? hget)

theorem set (h : BoundedCounts bound counts) (counter : Nat) {value : Nat}
    (hvalue : value ≤ bound) : BoundedCounts bound (counts.set counter value) := by
  refine ⟨by simpa using h.1, fun count hcount => ?_⟩
  rcases List.mem_or_eq_of_mem_set hcount with hcount | rfl
  · exact h.2 count hcount
  · exact hvalue

end BoundedCounts

theorem Finitely.boundedCounts (bound : Nat) : Finitely (BoundedCounts bound) :=
  ((Finitely.lt (bound + 1)).lists bound).mono fun _ h =>
    ⟨h.1, fun count hcount => Nat.lt_succ_of_le (h.2 count hcount)⟩

/-- A choice keeps the counter or resets it. -/
theorem le_of_mem_countChoices {min : Nat} {max : Option Nat} {greedy : Bool}
    {body exit count : Nat} {choice : Nat × Nat}
    (h : choice ∈ countChoices min max greedy body exit count) : choice.2 ≤ count := by
  have hor : choice = (body, count) ∨ choice = (exit, 0) := by
    simp only [countChoices] at h
    split at h <;> rcases List.mem_append.mp h with h | h <;> split at h <;> simp_all
  rcases hor with rfl | rfl
  · exact Nat.le_refl _
  · exact Nat.zero_le _

/-- Up to where a state counts. -/
def NfaState.limit : NfaState → Nat
  | increment _ limit _ => limit
  | _ => 0

namespace Nfa

variable {nfa : Nfa} {s : Nat}

theorem state_of_size_le (h : nfa.size ≤ s) : nfa.state s = .split [] := by
  rw [state, Array.getElem?_eq_none h]

theorem state_of_lt_size (h : s < nfa.size) : nfa.state s = nfa.nodes[s].state := by
  rw [state, Array.getElem?_eq_getElem h]

/-- The states with their counters that can follow without a unit, whatever the guards say. -/
def epsilon (nfa : Nfa) (a : Nat × List Nat) : List (Nat × List Nat) :=
  match nfa.state a.1 with
  | .unit _ _ | .accept => []
  | .split targets => targets.map fun s => (s, a.2)
  | .assert _ next | .save _ next | .unset _ _ next => [(next, a.2)]
  | .reset counter next => [(next, a.2.set counter 0)]
  | .increment counter limit next =>
    [(next, a.2.set counter (min (a.2[counter]?.getD 0 + 1) limit))]
  | .loop counter min max greedy body exit =>
    (countChoices min max greedy body exit (a.2[counter]?.getD 0)).map fun choice =>
      (choice.1, a.2.set counter choice.2)

theorem lt_size_of_mem_epsilon {a b : Nat × List Nat} (h : b ∈ nfa.epsilon a) : a.1 < nfa.size := by
  refine Nat.lt_of_not_le fun hle => ?_
  rw [epsilon, state_of_size_le hle] at h
  cases h

theorem bounded_of_mem_epsilon {bound : Nat} (hlimit : ∀ s, (nfa.state s).limit ≤ bound)
    {a b : Nat × List Nat} (ha : BoundedCounts bound a.2) (h : b ∈ nfa.epsilon a) :
    BoundedCounts bound b.2 := by
  have hlimit := hlimit a.1
  unfold epsilon at h
  cases hs : nfa.state a.1 <;> simp only [hs] at hlimit h
  case unit => simp at h
  case accept => simp at h
  case split targets =>
    obtain ⟨s, -, rfl⟩ := List.mem_map.mp h
    exact ha
  case assert => exact List.mem_singleton.mp h ▸ ha
  case save => exact List.mem_singleton.mp h ▸ ha
  case unset => exact List.mem_singleton.mp h ▸ ha
  case reset counter next => exact List.mem_singleton.mp h ▸ ha.set counter (Nat.zero_le _)
  case increment counter limit next =>
    exact List.mem_singleton.mp h ▸ ha.set counter (Nat.le_trans (Nat.min_le_right _ _) hlimit)
  case loop counter min max greedy body exit =>
    obtain ⟨choice, hchoice, rfl⟩ := List.mem_map.mp h
    exact ha.set counter (Nat.le_trans (le_of_mem_countChoices hchoice) (ha.getD_le counter))

/-- Any counters have a bound beyond which the automaton does not count. -/
theorem exists_bound (nfa : Nfa) (known : List (List Nat)) :
    ∃ bound, (∀ s, (nfa.state s).limit ≤ bound) ∧ ∀ counts ∈ known, BoundedCounts bound counts := by
  obtain ⟨bound, hbound⟩ := exists_forall_le
    ((nfa.nodes.toList.map fun n => n.state.limit) ++ known.map List.length ++ known.flatten)
  refine ⟨bound, fun s => ?_, fun counts hcounts => ⟨?_, fun count hcount => ?_⟩⟩
  · rcases Nat.lt_or_ge s nfa.size with hlt | hge
    · rw [state_of_lt_size hlt]
      refine hbound _ (List.mem_append_left _ (List.mem_append_left _ ?_))
      exact List.mem_map_of_mem (Array.getElem_mem_toList hlt)
    · rw [state_of_size_le hge]
      exact Nat.zero_le _
  · exact hbound _ (List.mem_append_left _ (List.mem_append_right _ (List.mem_map_of_mem hcounts)))
  · exact hbound _ (List.mem_append_right _ (List.mem_flatten.mpr ⟨counts, hcounts, hcount⟩))

end Nfa

end UnitRegex
