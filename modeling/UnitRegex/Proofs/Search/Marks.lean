import UnitRegex.Proofs.Search.Rounds
import UnitRegex.Search.Threads

/-!
Marks of a frontier. A thread is marked by its state, with its counters where there are some.
-/

namespace UnitRegex

namespace Frontier

/-- Whether a thread with this state and these counters is not explored any more. -/
def Marked (f : Frontier) (k : Nat × List Nat) : Prop :=
  if k.2.isEmpty then f.states.contains k.1 = true ∨ f.states.capacity ≤ k.1
  else k ∈ f.counted

theorem marked_empty {nfa : Nfa} {k : Nat × List Nat} (h : (empty nfa).Marked k) :
    nfa.size ≤ k.1 := by
  unfold Marked empty at h
  split at h
  · rw [SparseSet.contains_of_empty rfl] at h
    simpa [SparseSet.capacity, SparseSet.ofCapacity] using h
  · simp at h

theorem marked_clear {f : Frontier} {k : Nat × List Nat} (h : f.clear.Marked k) :
    f.states.capacity ≤ k.1 := by
  unfold Marked clear at h
  split at h
  · rw [SparseSet.contains_of_empty rfl] at h
    simpa [SparseSet.capacity, SparseSet.clear] using h
  · simp at h

/-- A frontier with the same threads, whose marks are in order. -/
structure Keeps (f f' : Frontier) : Prop where
  threads : f'.threads = f.threads
  valid : f'.states.Valid
  capacity : f'.states.capacity = f.states.capacity

theorem enter_of_marked {f : Frontier} {t : Thread} (hvalid : f.states.Valid)
    (h : f.Marked (t.state, t.counts)) :
    ∃ f', f.enter t = (f', false) ∧ f.Keeps f' ∧ ∀ k, f'.Marked k → f.Marked k := by
  obtain ⟨threads, states, counted⟩ := f
  unfold Marked at h
  unfold enter
  by_cases hcounts : t.counts.isEmpty
  · rw [if_pos hcounts] at h ⊢
    have hinsert : states.insert t.state = (states, false) := by
      rw [SparseSet.insert, if_pos]
      simpa using h
    exact ⟨⟨threads, states, counted⟩, by simp only [hinsert], ⟨rfl, hvalid, rfl⟩, fun k hk => hk⟩
  · rw [if_neg hcounts] at h ⊢
    refine ⟨⟨threads, states, counted.insert (t.state, t.counts)⟩, ?_, ⟨rfl, hvalid, rfl⟩, ?_⟩
    · simp only [Std.HashSet.containsThenInsert_fst, Std.HashSet.containsThenInsert_snd,
        Prod.mk.injEq, true_and, Bool.not_eq_false']
      exact Std.HashSet.mem_iff_contains.mp h
    · intro k hk
      unfold Marked at hk ⊢
      by_cases hempty : k.2.isEmpty
      · rw [if_pos hempty] at hk ⊢
        exact hk
      · rw [if_neg hempty] at hk ⊢
        rcases Std.HashSet.mem_insert.mp hk with hk | hk
        · exact beq_iff_eq.mp hk ▸ h
        · exact hk

theorem enter_of_not_marked {f : Frontier} {t : Thread} (hvalid : f.states.Valid)
    (h : ¬f.Marked (t.state, t.counts)) :
    ∃ f', f.enter t = (f', true) ∧ f.Keeps f' ∧
      ∀ k, f'.Marked k → k = (t.state, t.counts) ∨ f.Marked k := by
  obtain ⟨threads, states, counted⟩ := f
  unfold Marked at h
  unfold enter
  by_cases hcounts : t.counts.isEmpty
  · rw [if_pos hcounts, not_or] at h
    rw [if_pos hcounts]
    obtain ⟨hfresh, hlt⟩ := h
    have hfresh : states.contains t.state = false := by simpa using hfresh
    have hlt : t.state < states.capacity := by simpa using hlt
    have hcapacity : (states.insert t.state).1.capacity = states.capacity := by
      simp [SparseSet.insert_of_fresh hfresh hlt, SparseSet.capacity]
    refine ⟨⟨threads, (states.insert t.state).1, counted⟩, ?_,
      ⟨rfl, SparseSet.valid_insert hfresh hlt hvalid, hcapacity⟩, ?_⟩
    · simp [SparseSet.insert_of_fresh hfresh hlt]
    · intro k hk
      unfold Marked at hk ⊢
      by_cases hempty : k.2.isEmpty
      · rw [if_pos hempty] at hk ⊢
        rw [SparseSet.contains_insert hfresh hlt hvalid, hcapacity, or_assoc] at hk
        refine hk.imp (fun heq => Prod.ext heq ?_) id
        rw [List.isEmpty_iff.mp hempty, List.isEmpty_iff.mp hcounts]
      · rw [if_neg hempty] at hk ⊢
        exact .inr hk
  · rw [if_neg hcounts] at h ⊢
    refine ⟨⟨threads, states, counted.insert (t.state, t.counts)⟩, ?_, ⟨rfl, hvalid, rfl⟩, ?_⟩
    · simp only [Std.HashSet.containsThenInsert_fst, Std.HashSet.containsThenInsert_snd,
        Prod.mk.injEq, true_and, Bool.not_eq_true']
      exact Bool.eq_false_iff.mpr fun hc => h (Std.HashSet.mem_iff_contains.mpr hc)
    · intro k hk
      unfold Marked at hk ⊢
      by_cases hempty : k.2.isEmpty
      · rw [if_pos hempty] at hk ⊢
        exact .inr hk
      · rw [if_neg hempty] at hk ⊢
        exact (Std.HashSet.mem_insert.mp hk).imp (fun h => (beq_iff_eq.mp h).symm) id

end Frontier

end UnitRegex
