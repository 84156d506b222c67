import UnitRegex.Proofs.Automaton.Invariance
import UnitRegex.Proofs.Search.Following
import UnitRegex.Proofs.Search.Marks

/-!
The simulation of an automaton by threads finds what a depth-first search finds at the first
position from which it finds anything. The waiting threads are worth what the searches from them
find, in order of priority, and reading a unit or dropping the threads behind a match does not
change what is found in the end.
-/

namespace UnitRegex

namespace Nfa

variable {nfa : Nfa} (h : nfa.Grounded) (text : Text) (stop : Nat)

/-- The captures of what a search finds that starts with a thread at a position. -/
noncomputable def threadSlots (cursor : Nat) (t : Thread) : Option Slots :=
  (nfa.first h text stop ⟨cursor, t⟩).map fun x => x.thread.slots

/-- A thread in front of a unit or at acceptance. -/
def Waits (nfa : Nfa) (t : Thread) : Prop :=
  (∃ set next, nfa.state t.state = .unit set next) ∨ nfa.state t.state = .accept

variable {text stop}

theorem threadSlots_of_accept {cursor : Nat} {t : Thread} (ht : nfa.state t.state = .accept) :
    nfa.threadSlots h text stop cursor t = some t.slots := by
  rw [threadSlots, first_of_accept (x := ⟨cursor, t⟩) h ht]
  rfl

theorem threadSlots_of_not_unit {cursor : Nat} {t : Thread} (ht : ¬nfa.Waits t) :
    nfa.threadSlots h text stop cursor t =
      (t.successors nfa text cursor).findSome? (nfa.threadSlots h text stop cursor) := by
  have haccept : nfa.state t.state ≠ .accept := fun ha => ht (.inr ha)
  have hunit : ∀ set next, nfa.state t.state ≠ .unit set next := fun set next hs =>
    ht (.inl ⟨set, next, hs⟩)
  rw [threadSlots, first_of_not_unit h hunit haccept, List.map_findSome?]
  rfl

theorem threadSlots_of_unit (hd : nfa.direction = .forward) {cursor next : Nat} {t : Thread}
    {set : CharSet} (ht : nfa.state t.state = .unit set next) :
    nfa.threadSlots h text stop cursor t =
      if cursor < stop && text[cursor]?.any (set.contains ·) then
        nfa.threadSlots h text stop (cursor + 1) { t with state := next }
      else none := by
  rw [threadSlots, first_of_unit h hd ht]
  split <;> rfl

end Nfa

namespace Frontier

variable {nfa : Nfa} (h : nfa.Grounded) (text : Text) (stop : Nat)

/-- What the waiting threads at a position find. -/
noncomputable def worth (cursor : Nat) (f : Frontier) : Option Slots :=
  f.threads.reverse.findSome? (nfa.threadSlots h text stop cursor)

/-- A frontier of an automaton, whose threads all wait. -/
structure Ordered (nfa : Nfa) (f : Frontier) : Prop where
  valid : f.states.Valid
  capacity : f.states.capacity = nfa.size
  waits : ∀ t ∈ f.threads, nfa.Waits t

/-- No thread that is marked would find anything new. -/
def Settled (h : nfa.Grounded) (text : Text) (stop cursor : Nat) (f : Frontier) : Prop :=
  Valuation.Settled (fun _ => True) (fun t : Thread => (t.state, t.counts)) Marked
    (nfa.threadSlots h text stop cursor) (worth h text stop cursor) f

variable {text stop} {cursor : Nat}

theorem Keeps.ordered {f f' : Frontier} (hk : f.Keeps f') (hf : f.Ordered nfa) :
    f'.Ordered nfa :=
  ⟨hk.valid, hk.capacity.trans hf.capacity, by rw [hk.threads]; exact hf.waits⟩

theorem Keeps.worth_eq {f f' : Frontier} (hk : f.Keeps f') :
    worth h text stop cursor f' = worth h text stop cursor f := by
  rw [worth, worth, hk.threads]

/-- Exploring a thread adds what it finds behind what is there. -/
theorem valuation : Valuation (visit nfa text cursor) (fun t : Thread => (t.state, t.counts))
    (fun b a => b ∈ nfa.epsilon a) (fun _ => True) (Ordered nfa) (fun _ => False) Marked
    (nfa.threadSlots h text stop cursor) (worth h text stop cursor) where
  wellFounded := ⟨fun a => Nfa.acc_of_settles (h a)⟩
  same t u _ _ hkey ht := by
    have hsame : (nfa.first h text stop ⟨cursor, t⟩).isSome =
        (nfa.first h text stop ⟨cursor, u⟩).isSome := Nfa.isSome_first_of_key h rfl hkey
    rw [Nfa.threadSlots, Option.isSome_map] at ht ⊢
    rwa [← hsame]
  seen t f _ hf hmarked := by
    obtain ⟨f', henter, hkeeps, hmarks⟩ := enter_of_marked hf.valid hmarked
    refine ⟨f', ?_, hkeeps.ordered hf, hkeeps.worth_eq h, hmarks⟩
    rw [visit, henter]
  fresh t f _ hf hmarked := by
    left
    obtain ⟨f', henter, hkeeps, hmarks⟩ := enter_of_not_marked hf.valid hmarked
    by_cases hwaits : nfa.Waits t
    · refine ⟨[], { f' with threads := t :: f'.threads }, nfa.threadSlots h text stop cursor t,
        ?_, ?_, ?_, by simp, hmarks, by simp⟩
      · rw [visit, henter]
        rcases hwaits with ⟨set, next, hs⟩ | hs <;> simp only [hs]
      · refine ⟨hkeeps.valid, hkeeps.capacity.trans hf.capacity, fun u hu => ?_⟩
        rcases List.mem_cons.mp hu with rfl | hu
        · exact hwaits
        · exact (hkeeps.ordered hf).waits u hu
      · simp only [worth, List.reverse_cons, List.findSome?_append, hkeeps.threads,
          List.findSome?_singleton]
    · refine ⟨t.successors nfa text cursor, f', none, ?_, hkeeps.ordered hf, ?_, ?_, hmarks,
        fun u hu => ⟨trivial, Thread.key_mem_epsilon hu⟩⟩
      · rw [visit, henter]
        cases hs : nfa.state t.state
        case unit set next => exact absurd (.inl ⟨set, next, hs⟩) hwaits
        case accept => exact absurd (.inr hs) hwaits
        all_goals rfl
      · rw [hkeeps.worth_eq h, Option.or_none]
      · rw [Option.none_or]
        exact Nfa.threadSlots_of_not_unit h hwaits

theorem add_spec {f : Frontier} (hf : f.Ordered nfa) (hsettled : f.Settled h text stop cursor)
    (t : Thread) :
    (f.add nfa text cursor t).Ordered nfa ∧
      (f.add nfa text cursor t).Settled h text stop cursor ∧
      worth h text stop cursor (f.add nfa text cursor t) =
        (worth h text stop cursor f).or (nfa.threadSlots h text stop cursor t) := by
  obtain ⟨hworth, hend⟩ := (valuation h).explore_spec (fun _ (_ : _ ∈ [t]) => trivial) hf
    hsettled
  rw [List.findSome?_singleton] at hworth
  rw [add_eq_explore h]
  rcases hend with ⟨hfalse, -⟩ | ⟨hordered, hsettled'⟩
  · exact hfalse.elim
  · exact ⟨hordered, hsettled', hworth⟩

theorem ordered_empty (nfa : Nfa) : (empty nfa).Ordered nfa :=
  ⟨SparseSet.valid_of_empty rfl, by simp [empty, SparseSet.capacity, SparseSet.ofCapacity],
    by simp [empty]⟩

theorem Ordered.clear {f : Frontier} (hf : f.Ordered nfa) : f.clear.Ordered nfa :=
  ⟨SparseSet.valid_of_empty rfl, hf.capacity, by simp [Frontier.clear]⟩

/-- A state that does not exist finds nothing. -/
theorem settled_of_marked {f : Frontier} (hmarked : ∀ k, f.Marked k → nfa.size ≤ k.1) :
    f.Settled h text stop cursor := by
  intro t _ hm _ hsome
  have hnone : nfa.state t.state = .split [] := by
    rw [Nfa.state, Array.getElem?_eq_none (hmarked _ hm)]
  rw [Nfa.threadSlots_of_not_unit h (by simp [Nfa.Waits, hnone])] at hsome
  simp [Thread.successors, hnone] at hsome

theorem settled_empty : (empty nfa).Settled h text stop cursor :=
  settled_of_marked h fun _ hm => marked_empty hm

theorem Ordered.settled_clear {f : Frontier} (hf : f.Ordered nfa) :
    f.clear.Settled h text stop cursor :=
  settled_of_marked h fun _ hm => hf.capacity ▸ marked_clear hm

/-- Moving on by a unit does not change what is found. -/
theorem advance_spec (hd : nfa.direction = .forward) {threads : List Thread}
    (hwaits : ∀ t ∈ threads, nfa.Waits t) {next : Frontier} (hnext : next.Ordered nfa)
    (hsettled : next.Settled h text stop (cursor + 1)) (found : Option Slots) :
    (advance nfa text stop cursor threads next found).1.Ordered nfa ∧
      (advance nfa text stop cursor threads next found).1.Settled h text stop (cursor + 1) ∧
      (worth h text stop (cursor + 1) (advance nfa text stop cursor threads next found).1).or
          (advance nfa text stop cursor threads next found).2 =
        (worth h text stop (cursor + 1) next).or
          ((threads.findSome? (nfa.threadSlots h text stop cursor)).or found) := by
  induction threads generalizing next with
  | nil => exact ⟨hnext, hsettled, by simp [advance]⟩
  | cons t rest ih =>
    have hrest : ∀ u ∈ rest, nfa.Waits u := fun u hu => hwaits u (by simp [hu])
    rcases hwaits t (by simp) with ⟨set, target, hs⟩ | hs
    · have hslots : nfa.threadSlots h text stop cursor t = _ :=
        Nfa.threadSlots_of_unit h hd hs
      by_cases hread : (cursor < stop && text[cursor]?.any (set.contains ·)) = true
      · rw [if_pos hread] at hslots
        obtain ⟨hadd, haddSettled, hworth⟩ := add_spec h hnext hsettled { t with state := target }
        simp only [advance, hs, if_pos hread]
        obtain ⟨hordered, hsettled', heq⟩ := ih hrest hadd haddSettled
        refine ⟨hordered, hsettled', ?_⟩
        rw [heq, hworth, List.findSome?_cons, hslots, Option.or_assoc]
        cases nfa.threadSlots h text stop (cursor + 1) { t with state := target } <;> rfl
      · rw [if_neg hread] at hslots
        simp only [advance, hs, if_neg hread]
        rw [List.findSome?_cons, hslots]
        exact ih hrest hnext hsettled
    · simp only [advance, hs]
      refine ⟨hnext, hsettled, ?_⟩
      rw [List.findSome?_cons, Nfa.threadSlots_of_accept h hs]
      simp

/-- At the limit no thread goes on. -/
theorem advance_of_limit {threads : List Thread} {next : Frontier} {found : Option Slots}
    (hlimit : ¬cursor < stop) : (advance nfa text stop cursor threads next found).1 = next := by
  induction threads generalizing found with
  | nil => rfl
  | cons t rest ih =>
    rw [advance]
    split
    · rfl
    · rw [if_neg (by simp [hlimit])]
      exact ih
    · exact ih

end Frontier

namespace Nfa

variable {nfa : Nfa} {text : Text}

/-- The positions at which attempts start, from `cursor` up to `stop`. -/
def attempts (start stop : Nat) (anchored : Bool) (cursor : Nat) : List Nat :=
  if anchored then if cursor = start then [start] else []
  else List.range' cursor (stop + 1 - cursor)

theorem attempts_eq_cons {start stop cursor : Nat} {anchored : Bool} (hle : cursor ≤ stop)
    (hactive : (!anchored || cursor == start) = true) :
    attempts start stop anchored cursor =
      cursor :: attempts start stop anchored (cursor + 1) := by
  cases anchored with
  | true =>
    obtain rfl : cursor = start := by simpa using hactive
    simp [attempts]
  | false =>
    simp only [attempts, Bool.false_eq_true, if_false]
    rw [show stop + 1 - cursor = (stop + 1 - (cursor + 1)) + 1 by omega, List.range'_succ]

theorem attempts_eq_nil {start stop cursor : Nat} {anchored : Bool}
    (hanchored : anchored = true → cursor ≠ start) (hstop : anchored = false → stop < cursor) :
    attempts start stop anchored cursor = [] := by
  cases anchored with
  | true => simp [attempts, hanchored rfl]
  | false =>
    have := hstop rfl
    simp [attempts, show stop + 1 - cursor = 0 by omega]

section

variable (h : nfa.Grounded) (text : Text) (start stop : Nat) (anchored : Bool)

/-- What the attempts find that start from `cursor` on. -/
noncomputable def laterSlots (cursor : Nat) : Option Slots :=
  (attempts start stop anchored cursor).findSome? fun i =>
    nfa.threadSlots h text stop i (Thread.initial nfa)

variable {text start stop anchored} {cursor : Nat}

theorem laterSlots_of_active (hle : cursor ≤ stop)
    (hactive : (!anchored || cursor == start) = true) :
    nfa.laterSlots h text start stop anchored cursor =
      (nfa.threadSlots h text stop cursor (Thread.initial nfa)).or
        (nfa.laterSlots h text start stop anchored (cursor + 1)) := by
  rw [laterSlots, attempts_eq_cons hle hactive, List.findSome?_cons]
  cases nfa.threadSlots h text stop cursor (Thread.initial nfa) <;> rfl

theorem laterSlots_eq_none (hanchored : anchored = true → cursor ≠ start)
    (hstop : anchored = false → stop < cursor) :
    nfa.laterSlots h text start stop anchored cursor = none := by
  rw [laterSlots, attempts_eq_nil hanchored hstop]
  rfl

variable (anchored) in
/-- With the attempt that starts here the waiting threads are worth as much as before. -/
theorem exists_started (hstart : start ≤ cursor) (hcursor : cursor ≤ stop) {current : Frontier}
    (hcurrent : current.Ordered nfa) (hsettled : current.Settled h text stop cursor)
    (found : Option Slots) :
    ∃ current', (if found.isNone && (!anchored || cursor == start) then
        current.add nfa text cursor (Thread.initial nfa) else current) = current' ∧
      current'.Ordered nfa ∧
      (Frontier.worth h text stop cursor current').or
          (found.or (nfa.laterSlots h text start stop anchored (cursor + 1))) =
        (Frontier.worth h text stop cursor current).or
          (found.or (nfa.laterSlots h text start stop anchored cursor)) := by
  by_cases hadd : (found.isNone && (!anchored || cursor == start)) = true
  · obtain ⟨hordered, -, hworth⟩ := Frontier.add_spec h hcurrent hsettled (Thread.initial nfa)
    refine ⟨_, if_pos hadd, hordered, ?_⟩
    obtain ⟨hnone, hactive⟩ := Bool.and_eq_true_iff.mp hadd
    obtain rfl : found = none := by simpa using hnone
    rw [laterSlots_of_active h hcursor hactive, hworth, Option.none_or, Option.none_or,
      Option.or_assoc]
  · refine ⟨_, if_neg hadd, hcurrent, ?_⟩
    cases found with
    | some slots => simp
    | none =>
      obtain ⟨hanchored, hne⟩ : anchored = true ∧ cursor ≠ start := by simpa using hadd
      rw [laterSlots_eq_none h (fun _ => hne) (by simp [hanchored]),
        laterSlots_eq_none h (fun _ => by omega) (by simp [hanchored])]

/-- A run of threads finds what they find, what was found before, or what the attempts find that
still start, in this order. -/
theorem runThreads_spec (hd : nfa.direction = .forward) (hstart : start ≤ cursor)
    (hcursor : cursor ≤ stop) {current spare : Frontier} (hcurrent : current.Ordered nfa)
    (hsettled : current.Settled h text stop cursor) (hspare : spare.Ordered nfa)
    (found : Option Slots) :
    nfa.runThreads text start stop anchored cursor current spare found =
      (Frontier.worth h text stop cursor current).or
        (found.or (nfa.laterSlots h text start stop anchored cursor)) := by
  generalize hn : stop - cursor = n
  induction n using Nat.strongRecOn generalizing cursor current spare found with
  | _ n ih =>
    rw [runThreads]
    by_cases hover : (current.threads.isEmpty &&
        (found.isSome || (anchored && start < cursor))) = true
    · rw [if_pos hover]
      simp only [Bool.and_eq_true, Bool.or_eq_true, decide_eq_true_eq] at hover
      have hworth : Frontier.worth h text stop cursor current = none := by
        rw [Frontier.worth, List.isEmpty_iff.mp hover.1]
        rfl
      rw [hworth, Option.none_or]
      rcases hover.2 with hfound | ⟨hanchored, hlt⟩
      · rw [Option.or_of_isSome hfound]
      · rw [laterSlots_eq_none h (fun _ => by omega) (by simp [hanchored]), Option.or_none]
    rw [if_neg hover]
    obtain ⟨current', hcurrent', hordered, hsame⟩ :=
      exists_started h anchored hstart hcursor hcurrent hsettled found
    rw [hcurrent', ← hsame]
    have hwaits : ∀ t ∈ current'.threads.reverse, nfa.Waits t := fun t ht =>
      hordered.waits t (by simpa using ht)
    have hclear : Frontier.worth h text stop (cursor + 1) spare.clear = none := rfl
    obtain ⟨hnext, hnextSettled, hadvance⟩ := Frontier.advance_spec h hd hwaits hspare.clear
      (hspare.settled_clear h : spare.clear.Settled h text stop (cursor + 1)) found
    rw [hclear, Option.none_or] at hadvance
    generalize hresult : Frontier.advance nfa text stop cursor current'.threads.reverse spare.clear
      found = result at hnext hnextSettled hadvance
    simp only [hresult]
    have hvalue : (Frontier.worth h text stop cursor current').or found =
        (Frontier.worth h text stop (cursor + 1) result.1).or result.2 := hadvance.symm
    by_cases hlt : cursor < stop
    · rw [if_pos hlt, ih (stop - (cursor + 1)) (by omega) (by omega) (by omega) hnext hnextSettled
        hordered result.2 rfl]
      rw [← Option.or_assoc, ← Option.or_assoc, hvalue]
    · rw [if_neg hlt]
      have hempty : result.1 = spare.clear := by
        rw [← hresult]
        exact Frontier.advance_of_limit hlt
      rw [hempty, hclear, Option.none_or] at hvalue
      rw [laterSlots_eq_none h (fun _ => by omega) (fun _ => by omega), Option.or_none, hvalue]

end

/-- A simulation finds the captures of the search from the first position that finds anything. -/
theorem findSlots_eq (h : nfa.Grounded) (hd : nfa.direction = .forward) {start stop : Nat}
    (hle : start ≤ min stop text.size) (anchored : Bool) :
    nfa.findSlots text start stop anchored =
      (attempts start (min stop text.size) anchored start).findSome? fun i =>
        nfa.threadSlots h text (min stop text.size) i (Thread.initial nfa) := by
  rw [findSlots, runThreads_spec h hd (Nat.le_refl start) hle (Frontier.ordered_empty nfa)
    (Frontier.settled_empty h) (Frontier.ordered_empty nfa) none]
  rfl

end Nfa

end UnitRegex
