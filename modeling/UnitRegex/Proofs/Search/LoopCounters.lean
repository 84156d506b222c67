import UnitRegex.Proofs.Automaton.Counting
import UnitRegex.Proofs.Search.Simulation

/-!
The counters of the threads of a search. A search is followed call by call; whatever a frontier holds
at a position, and whatever was explored on the way, comes from zero with the units read since the
start.
-/

namespace UnitRegex

namespace Nfa

variable (nfa : Nfa) (text : Text) (start stop : Nat) (anchored : Bool)

/-- The threads at a position, with those of the attempt that starts there. -/
def started (cursor : Nat) (current : Frontier) (found : Option Slots) : Frontier :=
  if found.isNone && (!anchored || cursor == start) then
    current.add nfa text cursor (Thread.initial nfa)
  else current

/-- The calls that a search makes, one for every position that it comes to. -/
inductive Calls : Nat → Frontier → Frontier → Option Slots → Prop
  | first : Calls start (.empty nfa) (.empty nfa) none
  | next {cursor : Nat} {current spare next : Frontier} {found found' : Option Slots}
    (h : Calls cursor current spare found)
    (hover : (current.threads.isEmpty && (found.isSome || (anchored && start < cursor))) = false)
    (hlt : cursor < stop)
    (hadvance : Frontier.advance nfa text stop cursor
      (nfa.started text start anchored cursor current found).threads.reverse spare.clear found =
        (next, found')) :
    Calls (cursor + 1) next (nfa.started text start anchored cursor current found) found'

variable {nfa text start stop anchored} {cursor n : Nat} {current spare : Frontier}
  {found : Option Slots}

theorem Calls.start_le (h : nfa.Calls text start stop anchored cursor current spare found) :
    start ≤ cursor := by
  induction h with
  | first => exact Nat.le_refl _
  | next _ _ _ _ ih => exact Nat.le_succ_of_le ih

theorem Calls.sub_le (h : nfa.Calls text start stop anchored cursor current spare found) :
    cursor - start ≤ stop := by
  cases h with
  | first => omega
  | next _ _ hlt => omega

/-- Each of these calls comes to the result of the search. -/
theorem Calls.runThreads_eq (h : nfa.Calls text start stop anchored cursor current spare found) :
    nfa.runThreads text start stop anchored start (.empty nfa) (.empty nfa) none =
      nfa.runThreads text start stop anchored cursor current spare found := by
  induction h with
  | first => rfl
  | @next cursor current spare next found found' _ hover hlt hadvance ih =>
    rw [ih, runThreads, if_neg (by simp [hover])]
    simp only [started] at hadvance ⊢
    simp only [hadvance, if_pos hlt]

end Nfa

namespace Frontier

/-- All that a frontier holds comes from zero with some number of units. -/
structure Within (nfa : Nfa) (n : Nat) (f : Frontier) : Prop where
  threads : ∀ t ∈ f.threads, nfa.Waits t ∧ nfa.Comes n (t.state, t.counts)
  counted : ∀ key ∈ f.counted, nfa.Comes n key

variable {nfa : Nfa} {text : Text} {cursor stop n : Nat} {f : Frontier} {t : Thread}

theorem within_empty (nfa : Nfa) (n : Nat) : (empty nfa).Within nfa n :=
  ⟨by simp [empty], by simp [empty]⟩

theorem within_clear (nfa : Nfa) (n : Nat) (f : Frontier) : f.clear.Within nfa n :=
  ⟨by simp [clear], by simp [clear]⟩

theorem Within.enter (hf : f.Within nfa n) (ht : nfa.Comes n (t.state, t.counts)) :
    (f.enter t).1.Within nfa n := by
  obtain ⟨threads, states, counted⟩ := f
  unfold Frontier.enter
  split
  · exact ⟨hf.threads, hf.counted⟩
  · refine ⟨hf.threads, fun key hkey => ?_⟩
    simp only [Std.HashSet.containsThenInsert_snd, Std.HashSet.mem_insert, beq_iff_eq] at hkey
    rcases hkey with rfl | hkey
    · exact ht
    · exact hf.counted key hkey

theorem Within.visit (hf : f.Within nfa n) (ht : nfa.Comes n (t.state, t.counts))
    {next : List Thread} {f' : Frontier} (h : visit nfa text cursor t f = .go next f') :
    f'.Within nfa n ∧ ∀ u ∈ next, nfa.Comes n (u.state, u.counts) := by
  have hentered := hf.enter ht
  unfold Frontier.visit at h
  generalize f.enter t = entered at h hentered
  obtain ⟨f'', fresh⟩ := entered
  cases fresh with
  | false =>
    obtain ⟨rfl, rfl⟩ := Visit.go.inj h
    exact ⟨hentered, by simp⟩
  | true =>
    dsimp only at h
    split at h
    · obtain ⟨rfl, rfl⟩ := Visit.go.inj h
      exact ⟨⟨List.forall_mem_cons.mpr ⟨⟨.inl ⟨_, _, ‹_›⟩, ht⟩, hentered.threads⟩, hentered.counted⟩,
        by simp⟩
    · obtain ⟨rfl, rfl⟩ := Visit.go.inj h
      exact ⟨⟨List.forall_mem_cons.mpr ⟨⟨.inr ‹_›, ht⟩, hentered.threads⟩, hentered.counted⟩, by simp⟩
    · obtain ⟨rfl, rfl⟩ := Visit.go.inj h
      exact ⟨hentered, fun u hu => ht.pass (Thread.key_mem_epsilon hu)⟩

theorem Within.add (hf : f.Within nfa n) (hgrounded : nfa.Grounded)
    (ht : nfa.Comes n (t.state, t.counts)) : (f.add nfa text cursor t).Within nfa n := by
  rw [add_eq_explore hgrounded]
  have hstack : ∀ u ∈ [t], nfa.Comes n (u.state, u.counts) := by simpa using ht
  refine explore_preserves (fun u f f' _ _ hstop => ?_) (fun u f next f' hu hf => hf.visit hu)
    hstack hf
  obtain ⟨next, f'', hgo, -⟩ := @visit_eq_go nfa text cursor u f
  cases hstop.symm.trans hgo

/-- What reads a unit has read one more. -/
theorem Within.advance (hgrounded : nfa.Grounded) {threads : List Thread}
    (hthreads : ∀ t ∈ threads, nfa.Comes n (t.state, t.counts)) {next : Frontier}
    (hnext : next.Within nfa (n + 1)) (found : Option Slots) :
    (Frontier.advance nfa text stop cursor threads next found).1.Within nfa (n + 1) := by
  induction threads generalizing next with
  | nil => exact hnext
  | cons t rest ih =>
    obtain ⟨ht, hrest⟩ := List.forall_mem_cons.mp hthreads
    rw [Frontier.advance]
    split
    · exact hnext
    · rename_i set target hs
      split
      · exact ih hrest (hnext.add hgrounded (ht.read hs))
      · exact ih hrest hnext
    · exact ih hrest hnext

end Frontier

namespace Nfa

variable {nfa : Nfa} {text : Text} {start stop cursor : Nat} {anchored : Bool}
  {current spare : Frontier} {found : Option Slots}

theorem within_started {n : Nat} (hgrounded : nfa.Grounded) (hcurrent : current.Within nfa n) :
    (nfa.started text start anchored cursor current found).Within nfa n := by
  unfold started
  split
  · exact hcurrent.add hgrounded (.start _ _)
  · exact hcurrent

/-- The frontiers of a search come from zero with the units read since its start. -/
theorem Calls.within (h : nfa.Calls text start stop anchored cursor current spare found)
    (hgrounded : nfa.Grounded) : current.Within nfa (cursor - start) := by
  induction h with
  | first => exact Frontier.within_empty nfa _
  | @next cursor current spare next found found' hcalls _ _ hadvance ih =>
    let threads := (nfa.started text start anchored cursor current found).threads.reverse
    have hthreads : ∀ t ∈ threads, nfa.Comes (cursor - start) (t.state, t.counts) := fun t ht =>
      ((within_started hgrounded ih).threads t (List.mem_reverse.mp ht)).2
    have hnext : (Frontier.advance nfa text stop cursor threads spare.clear found).1.Within nfa
        (cursor - start + 1) := .advance hgrounded hthreads (Frontier.within_clear nfa _ spare) found
    rw [hadvance] at hnext
    rwa [Nat.sub_add_comm hcalls.start_le]

end Nfa

/-- The counters of all that waits in a frontier are those of the loops it is in, and no state that
was passed has counted too far. -/
structure Frontier.InLoops (nfa : Nfa) (f : Frontier) : Prop where
  threads : ∀ t ∈ f.threads, nfa.KeepsCounts t.state t.counts
  passed : ∀ key, f.Entered key → nfa.CountFits key.1 key.2

theorem Frontier.Within.inLoops {nfa : Nfa} {n : Nat} {f : Frontier} (hf : f.Within nfa n)
    (hloops : nfa.CountsWithin 0 nfa.size 0 nfa.counters) (hn : n + 1 < 2 ^ 32) : f.InLoops nfa := by
  refine ⟨fun t ht => ?_, fun key hkey => ?_⟩
  · obtain ⟨hwaits, hcomes⟩ := hf.threads t ht
    refine hloops.keepsCounts hcomes ?_
    rcases hwaits with ⟨set, next, hs⟩ | hs <;> rw [hs] <;> rfl
  · unfold Frontier.Entered at hkey
    split at hkey
    · -- There are no counters.
      rename_i hempty
      rw [List.isEmpty_iff.mp hempty]
      intro counter limit next _
      simp
    · exact hloops.countFits (hf.counted key hkey) hn

end UnitRegex
