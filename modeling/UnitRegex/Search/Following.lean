import UnitRegex.Alphabet.Text
import UnitRegex.Automaton.Counts
import UnitRegex.Search.Explore
import UnitRegex.Search.SearchResult
import UnitRegex.Search.SparseSet
import Std.Data.HashSet

/-!
What a thread comes to without reading a unit. The branches on the way share one set of counters and
captures, and what a branch changes is set back behind it. Where a thread waits, it gets copies.
-/

namespace UnitRegex

/-- Whether the units from a position on lie in the sets of a sequence one by one. -/
def Text.matchesAt (text : Text) (cursor : Nat) : List CharSet → Bool
  | [] => true
  | set :: rest => text[cursor]?.any (set.contains ·) && text.matchesAt (cursor + 1) rest

/-- Whether a guard holds at a position. -/
def Nfa.holds (nfa : Nfa) (text : Text) (cursor : Nat) : Guard → Bool
  | .caret => cursor == 0
  | .dollar => cursor == text.size
  | .behind body negated =>
    let sets := nfa.lookBehinds[body]?.getD []
    (sets.length ≤ cursor && text.matchesAt (cursor - sets.length) sets) != negated
  | .ahead body negated =>
    (nfa.lookAheads[body]?.getD []).any (text.matchesAt cursor) != negated

structure Thread where
  state : Nat
  counts : List Nat
  slots : Slots

namespace Thread

def initial (nfa : Nfa) : Thread :=
  ⟨nfa.start, List.replicate nfa.counters 0, Slots.unset nfa.groupCount⟩

def count (t : Thread) (counter : Nat) : Nat := t.counts[counter]?.getD 0

end Thread

/-- The threads that wait at one position. -/
structure Frontier where
  /-- Threads in front of a unit or at acceptance, lowest priority first. -/
  threads : List Thread
  /-- States reached at the position, where there are no counters. -/
  states : SparseSet
  /-- States reached with their counters, where there are. -/
  counted : Std.HashSet (Nat × List Nat)

namespace Frontier

def empty (nfa : Nfa) : Frontier := ⟨[], .ofCapacity nfa.size, ∅⟩

/-- Forgets all threads and keeps the space. -/
def clear (f : Frontier) : Frontier := ⟨[], f.states.clear, ∅⟩

/-- Marks the state and the counters of a thread, and tells whether they are new. -/
def enter (f : Frontier) (t : Thread) : Frontier × Bool :=
  if t.counts.isEmpty then
    let ⟨threads, states, counted⟩ := f
    let (states, fresh) := states.insert t.state
    (⟨threads, states, counted⟩, fresh)
  else
    let ⟨threads, states, counted⟩ := f
    let (known, counted) := counted.containsThenInsert (t.state, t.counts)
    (⟨threads, states, counted⟩, !known)

/-- Whether the state and the counters of a thread are marked. -/
def Entered (f : Frontier) (key : Nat × List Nat) : Prop :=
  if key.2.isEmpty then f.states.contains key.1 = true else key ∈ f.counted

section

variable {f : Frontier} {t : Thread}

theorem entered_enter_of_entered {key : Nat × List Nat} (h : f.Entered key) :
    (f.enter t).1.Entered key := by
  unfold Entered at h ⊢
  unfold enter
  by_cases hcounts : t.counts.isEmpty <;> by_cases hkey : key.2.isEmpty
  · rw [if_pos hkey] at h ⊢
    rw [if_pos hcounts]
    exact SparseSet.contains_insert_of_contains h
  all_goals simp_all

theorem entered_enter (h : (f.enter t).2 = true) :
    ¬f.Entered (t.state, t.counts) ∧ (f.enter t).1.Entered (t.state, t.counts) := by
  unfold enter at h ⊢
  unfold Entered
  by_cases hcounts : t.counts.isEmpty
  · rw [if_pos hcounts] at h ⊢
    obtain ⟨hold, hnew⟩ := SparseSet.contains_insert_self h
    rw [if_pos hcounts, if_pos hcounts, hold]
    exact ⟨Bool.false_ne_true, hnew⟩
  · rw [if_neg hcounts] at h ⊢
    simpa [hcounts] using h

end

end Frontier

/-- What is left to do while a thread is followed. -/
inductive Pending where
  | follow (state : Nat)
  /-- Sets a capture slot back, once the branch that changed it is explored. -/
  | setSlot (slot : Nat) (value : Int)
  /-- Sets a loop counter, back or to what another way on expects. -/
  | setCount (counter value : Nat)

/-- What a counter is set to. -/
def Pending.count : Pending → Nat
  | .setCount _ value => value
  | _ => 0

/-- A frontier while a thread is followed, with the counters and captures that its branches
share. -/
structure Following where
  frontier : Frontier
  counts : List Nat
  slots : Slots

namespace Following

/-- Sets all slots of a range of groups to what they are, the last one first. -/
def slotsBack (slots : Slots) (lo hi : Nat) : List Pending :=
  (List.range' (2 * lo) (2 * hi - 2 * lo)).reverse.map fun slot =>
    .setSlot slot (slots[slot]?.getD (-1))

/-- What there is to do behind a state where a thread does not wait, and what the counters and slots
are in front of it. Each change is taken back before what comes behind it. -/
def branch (nfa : Nfa) (text : Text) (cursor : Nat) (t : Thread) :
    List Pending × List Nat × Slots :=
  match nfa.state t.state with
  | .unit _ _ | .accept => ([], t.counts, t.slots)
  | .split targets => (targets.map .follow, t.counts, t.slots)
  | .assert guard next =>
    (if nfa.holds text cursor guard then [.follow next] else [], t.counts, t.slots)
  | .save slot next =>
    ([.follow next, .setSlot slot (t.slots[slot]?.getD (-1))], t.counts,
      t.slots.setIfInBounds slot cursor)
  | .unset lo hi next =>
    (.follow next :: slotsBack t.slots lo hi, t.counts, t.slots.unsetGroups lo hi)
  | .reset counter next =>
    ([.follow next, .setCount counter (t.count counter)], t.counts.set counter 0, t.slots)
  | .increment counter limit next =>
    ([.follow next, .setCount counter (t.count counter)],
      t.counts.set counter (min (t.count counter + 1) limit), t.slots)
  | .loop counter min max greedy body exit =>
    match countChoices min max greedy body exit (t.count counter) with
    | [] => ([], t.counts, t.slots)
    | first :: rest =>
      (.follow first.1 :: .setCount counter (t.count counter) :: rest.flatMap fun choice =>
          [.setCount counter choice.2, .follow choice.1, .setCount counter (t.count counter)],
        t.counts.set counter first.2, t.slots)

/-- A state that needs a unit or accepts gets a thread with copies of the counters and slots, unless
the state was reached before with these counters. -/
def visit (nfa : Nfa) (text : Text) (cursor : Nat) : Pending → Following → Visit Pending Following
  | .setSlot slot value, ⟨frontier, counts, slots⟩ =>
    .go [] ⟨frontier, counts, slots.setIfInBounds slot value⟩
  | .setCount counter value, ⟨frontier, counts, slots⟩ =>
    .go [] ⟨frontier, counts.set counter value, slots⟩
  | .follow state, ⟨frontier, counts, slots⟩ =>
    let t : Thread := ⟨state, counts, slots⟩
    match frontier.enter t with
    | (frontier, false) => .go [] ⟨frontier, counts, slots⟩
    | (frontier, true) =>
      match nfa.state state with
      | .unit _ _ | .accept =>
        .go [] ⟨{ frontier with threads := t :: frontier.threads }, counts, slots⟩
      | _ =>
        let (pending, counts, slots) := branch nfa text cursor t
        .go pending ⟨frontier, counts, slots⟩

section

variable {nfa : Nfa} {text : Text} {cursor : Nat} {t : Thread} {bound : Nat}

theorem lt_size_of_branch (h : (branch nfa text cursor t).1 ≠ []) : t.state < nfa.size := by
  refine Nat.lt_of_not_le fun hle => h ?_
  rw [branch, Nfa.state_of_size_le hle]
  rfl

theorem bounded_branch (hlimit : ∀ s, (nfa.state s).limit ≤ bound)
    (ht : BoundedCounts bound t.counts) :
    (∀ p ∈ (branch nfa text cursor t).1, p.count ≤ bound) ∧
      BoundedCounts bound (branch nfa text cursor t).2.1 := by
  have hlimit := hlimit t.state
  have hcount : ∀ counter, t.count counter ≤ bound := ht.getD_le
  cases hs : nfa.state t.state <;> simp only [branch, hs] at hlimit ⊢
  case unit => exact ⟨by simp, ht⟩
  case accept => exact ⟨by simp, ht⟩
  case split targets => exact ⟨by simp [Pending.count], ht⟩
  case assert guard next =>
    refine ⟨fun p hp => ?_, ht⟩
    split at hp <;> simp_all [Pending.count]
  case save => exact ⟨by simp [Pending.count], ht⟩
  case unset lo hi next =>
    refine ⟨fun p hp => ?_, ht⟩
    rcases List.mem_cons.mp hp with rfl | hp
    · exact Nat.zero_le _
    · obtain ⟨slot, -, rfl⟩ := List.mem_map.mp hp
      exact Nat.zero_le _
  case reset counter next => exact ⟨by simp [Pending.count, hcount], ht.set counter (Nat.zero_le _)⟩
  case increment counter limit next =>
    exact ⟨by simp [Pending.count, hcount],
      ht.set counter (Nat.le_trans (Nat.min_le_right _ _) hlimit)⟩
  case loop counter min max greedy body exit =>
    have hchoice : ∀ choice ∈ countChoices min max greedy body exit (t.count counter),
        choice.2 ≤ bound := fun choice hmem =>
      Nat.le_trans (le_of_mem_countChoices hmem) (hcount counter)
    split
    · exact ⟨by simp, ht⟩
    · rename_i first rest hchoices
      rw [hchoices] at hchoice
      refine ⟨?_, ht.set counter (hchoice first (by simp))⟩
      simp only [List.mem_cons, List.mem_flatMap, List.not_mem_nil, or_false]
      rintro p (rfl | rfl | ⟨choice, hmem, rfl | rfl | rfl⟩)
      · exact Nat.zero_le _
      · exact hcount counter
      · exact hchoice choice (List.mem_cons_of_mem _ hmem)
      · exact Nat.zero_le _
      · exact hcount counter

/-- What is left to do behind a state only comes to wait when the state is entered. -/
theorem visit_go (hlimit : ∀ s, (nfa.state s).limit ≤ bound) {p : Pending} {next : List Pending}
    {f f' : Following} (hp : p.count ≤ bound) (hf : BoundedCounts bound f.counts)
    (h : visit nfa text cursor p f = .go next f') :
    BoundedCounts bound f'.counts ∧ (∀ q ∈ next, q.count ≤ bound) ∧
      (∀ key, f.frontier.Entered key → f'.frontier.Entered key) ∧
      (next ≠ [] → ∃ state < nfa.size,
        ¬f.frontier.Entered (state, f.counts) ∧ f'.frontier.Entered (state, f.counts)) := by
  obtain ⟨frontier, counts, slots⟩ := f
  cases p with
  | setSlot slot value =>
    cases h
    exact ⟨hf, by simp, fun key hkey => hkey, by simp⟩
  | setCount counter value =>
    cases h
    exact ⟨hf.set counter hp, by simp, fun key hkey => hkey, by simp⟩
  | follow state =>
    let t : Thread := ⟨state, counts, slots⟩
    have hmono : ∀ key, frontier.Entered key → (frontier.enter t).1.Entered key := fun key =>
      Frontier.entered_enter_of_entered
    have hfresh : (frontier.enter t).2 = true → ¬frontier.Entered (state, counts) ∧
        (frontier.enter t).1.Entered (state, counts) := Frontier.entered_enter
    simp only [visit] at h
    generalize frontier.enter t = entered at h hmono hfresh
    obtain ⟨frontier', fresh⟩ := entered
    cases fresh with
    | false =>
      cases h
      exact ⟨hf, by simp, hmono, by simp⟩
    | true =>
      dsimp only at h
      split at h <;> cases h
      · exact ⟨hf, by simp, hmono, by simp⟩
      · exact ⟨hf, by simp, hmono, by simp⟩
      · have ht : BoundedCounts bound t.counts := hf
        obtain ⟨hpending, hcounts⟩ := bounded_branch hlimit ht
        exact ⟨hcounts, hpending, hmono, fun hnext => ⟨state, lt_size_of_branch hnext, hfresh rfl⟩⟩

end

instance (nfa : Nfa) (text : Text) (cursor : Nat) : Exhausts (visit nfa text cursor) := by
  refine ⟨⟨fun stage => ?_⟩⟩
  obtain ⟨stack, found⟩ := stage
  obtain ⟨bound, hlimit, hknown⟩ := nfa.exists_bound [found.counts, stack.map Pending.count]
  have hmarks : SetsMarks (visit nfa text cursor) (fun f key => f.frontier.Entered key)
      (fun stack f => BoundedCounts bound f.counts ∧ ∀ p ∈ stack, p.count ≤ bound)
      (fun key => key.1 < nfa.size ∧ BoundedCounts bound key.2) := by
    refine ⟨(Finitely.lt nfa.size).prod (.boundedCounts bound), ?_⟩
    rintro p rest f next f' ⟨hf, hstack⟩ hvisit
    obtain ⟨hf', hnext, hmono, hsets⟩ := visit_go hlimit (hstack p (by simp)) hf hvisit
    refine ⟨⟨hf', fun q hq => ?_⟩, hmono, fun hne => ?_⟩
    · rcases List.mem_append.mp hq with hq | hq
      · exact hnext q hq
      · exact hstack q (by simp [hq])
    · obtain ⟨state, hlt, hfresh, hset⟩ := hsets hne
      exact ⟨(state, f.counts), ⟨hlt, hf⟩, hfresh, hset⟩
  have hstack := hknown (stack.map Pending.count) (by simp)
  exact hmarks.acc ⟨hknown _ (by simp), fun p hp => hstack.2 _ (List.mem_map_of_mem hp)⟩

end Following

end UnitRegex
