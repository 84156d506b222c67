import UnitRegex.Paths.Accepting
import UnitRegex.Proofs.Search.Leftmost

/-!
The accepting paths of a pattern. A path fits a position if the text has its sets there, and then it
stands for a configuration; following the pending paths keeps what a depth-first search finds from
the first of them that fits. So the preferred match at a position is that of the first accepting
path that fits.
-/

namespace UnitRegex

/-- The captures of a match that starts at a position, for slots in numbers of units from its
start. -/
def Slots.movedBy (s : Slots) (distance : Int) : Slots :=
  s.map fun offset => if offset < 0 then -1 else offset + distance

namespace Slots

theorem movedBy_unset (groupCount : Nat) (distance : Int) :
    (unset groupCount).movedBy distance = unset groupCount := by
  simp [movedBy, unset]

theorem movedBy_setIfInBounds (s : Slots) (slot offset : Nat) (distance : Int) :
    Slots.movedBy (s.setIfInBounds slot offset) distance =
      (s.movedBy distance).setIfInBounds slot (offset + distance) := by
  have hnonneg : ¬(offset : Int) < 0 := by omega
  rw [movedBy, movedBy, Array.map_setIfInBounds, if_neg hnonneg]

theorem movedBy_unsetGroups (s : Slots) (lo hi : Nat) (distance : Int) :
    (s.unsetGroups lo hi).movedBy distance = (s.movedBy distance).unsetGroups lo hi := by
  refine Array.ext (by simp [movedBy, unsetGroups]) fun i _ _ => ?_
  simp only [movedBy, unsetGroups, Array.getElem_map, Array.getElem_mapIdx]
  split <;> rfl

end Slots

namespace Path

/-- The text has the sets of a path at a position, which is the start of the input if the path says
so. -/
def fits (text : Text) (start : Nat) (p : Path) : Bool :=
  text.matchesAt start p.sets.reverse && (!p.anchored || start == 0)

/-- The thread at the end of a path that begins at a position. -/
def thread (nfa : Nfa) (start : Nat) (p : Path) : Thread :=
  ⟨p.state, List.replicate nfa.counters 0, p.slots.movedBy start⟩

variable {nfa : Nfa} (h : nfa.Grounded) (text : Text)

/-- What is found from the end of a path, if the path fits. -/
noncomputable def result? (start : Nat) (p : Path) : Option MatchState :=
  if p.fits text start then
    (nfa.first h text text.size ⟨start + p.length, p.thread nfa start⟩).map
      Configuration.matchState
  else none

variable {text}

theorem result?_of_accept {p : Path} (hp : nfa.state p.state = .accept) (start : Nat) :
    p.result? h text start =
      if p.fits text start then some ⟨start + p.length, p.slots.movedBy start⟩ else none := by
  rw [result?, Nfa.first_of_accept (x := ⟨start + p.length, p.thread nfa start⟩) h hp]
  rfl

/-- Paths that go on without a unit find what a path finds. -/
theorem findSome?_map_result? {p : Path} {start : Nat}
    (hunit : ∀ set next, nfa.state p.state ≠ .unit set next) (hp : nfa.state p.state ≠ .accept)
    {ι : Type} (l : List ι) (f : ι → Path)
    (hfits : ∀ i ∈ l, (f i).fits text start = p.fits text start)
    (hlength : ∀ i ∈ l, (f i).length = p.length)
    (hthreads : (p.thread nfa start).successors nfa text (start + p.length) =
      l.map fun i => (f i).thread nfa start) :
    (l.map f).findSome? (result? h text start) = p.result? h text start := by
  have hunit' : ∀ set next, nfa.state (p.thread nfa start).state ≠ .unit set next := hunit
  rw [result?, Nfa.first_of_not_unit h hunit' hp, hthreads, List.findSome?_map, List.findSome?_map,
    List.map_findSome?]
  by_cases hfit : p.fits text start = true
  · rw [if_pos hfit]
    refine findSome?_congr fun i hi => ?_
    rw [Function.comp_apply, result?, hfits i hi, if_pos hfit, hlength i hi]
    rfl
  · rw [if_neg hfit, List.findSome?_eq_none_iff]
    intro i hi
    rw [Function.comp_apply, result?, hfits i hi, if_neg hfit]

/-- The paths one step further find what a path finds. -/
theorem findSome?_extend? (hd : nfa.direction = .forward) {p : Path} {paths : List Path}
    (hp : nfa.state p.state ≠ .accept) (hextend : p.extend? nfa = some paths) (start : Nat) :
    paths.findSome? (result? h text start) = p.result? h text start := by
  have hthread : nfa.state (p.thread nfa start).state = nfa.state p.state := rfl
  cases hs : nfa.state p.state with
  | accept => exact absurd hs hp
  | unit set next =>
    simp only [extend?, hs, Option.some.injEq] at hextend
    subst hextend
    rw [hs] at hthread
    rw [List.findSome?_singleton, result?, result?, Nfa.first_of_unit h hd hthread,
      Text.lt_size_and_any]
    simp only [fits, length, List.reverse_cons, Text.matchesAt_append, List.length_reverse,
      Text.matchesAt, Bool.and_true, List.length_cons, ← Nat.add_assoc]
    by_cases hread : text[start + p.sets.length]?.any (set.contains ·) = true
    · simp only [hread, Bool.and_true, if_true]
      rfl
    · simp [hread]
  | split targets =>
    simp only [extend?, hs, Option.some.injEq] at hextend
    subst hextend
    refine findSome?_map_result? h (by simp [hs]) hp targets _ (fun _ _ => rfl) (fun _ _ => rfl) ?_
    simp only [Thread.successors, hthread, hs]
    rfl
  | save slot next =>
    simp only [extend?, hs, Option.some.injEq] at hextend
    subst hextend
    refine findSome?_map_result? h (by simp [hs]) hp [()] (fun _ => _) (fun _ _ => rfl)
      (fun _ _ => rfl) ?_
    simp only [Thread.successors, hs, List.map_singleton, thread, length,
      Slots.movedBy_setIfInBounds, Nat.cast_add, Int.add_comm]
  | unset lo hi next =>
    simp only [extend?, hs, Option.some.injEq] at hextend
    subst hextend
    refine findSome?_map_result? h (by simp [hs]) hp [()] (fun _ => _) (fun _ _ => rfl)
      (fun _ _ => rfl) ?_
    simp only [Thread.successors, hs, List.map_singleton, thread, Slots.movedBy_unsetGroups]
  | assert guard next =>
    cases guard with
    | caret =>
      simp only [extend?, hs, Option.some.injEq] at hextend
      subst hextend
      have hunit : ∀ set next, nfa.state (p.thread nfa start).state ≠ .unit set next := by
        simp [hthread, hs]
      rw [result?, Nfa.first_of_not_unit h hunit hp]
      simp only [Thread.successors, hthread, hs, Nfa.holds]
      cases hsets : p.sets with
      | nil =>
        -- Nothing has been read, so this is the start of the input if the path begins there.
        by_cases hzero : start = 0
        · simp [result?, fits, length, thread, hsets, hzero, Text.matchesAt]
        · simp [result?, fits, length, hsets, hzero, Text.matchesAt]
      | cons set rest =>
        have hlater : (start + p.length == 0) = false := by simp [length, hsets]
        simp only [hlater, Bool.false_eq_true, if_false]
        simp
    | dollar | behind | ahead => simp [extend?, hs] at hextend
  | reset | increment | loop => simp [extend?, hs] at hextend

theorem size_slots_of_mem_extend? {p q : Path} {paths : List Path}
    (hextend : p.extend? nfa = some paths) (hq : q ∈ paths) : q.slots.size = p.slots.size := by
  unfold extend? at hextend
  split at hextend <;> simp only [reduceCtorEq, Option.some.injEq] at hextend <;> subst hextend
  · obtain rfl := List.mem_singleton.mp hq
    rfl
  · obtain ⟨t, -, rfl⟩ := List.mem_map.mp hq
    rfl
  · split at hq
    · obtain rfl := List.mem_singleton.mp hq
      rfl
    · simp at hq
  · obtain rfl := List.mem_singleton.mp hq
    exact Array.size_setIfInBounds
  · obtain rfl := List.mem_singleton.mp hq
    exact Array.size_mapIdx
  · simp at hq

/-- All that a path leads to is known. -/
inductive Ends (nfa : Nfa) : Path → Prop
  | extend {p : Path} {paths : List Path} (h : p.extend? nfa = some paths)
    (hpaths : ∀ q ∈ paths, Ends nfa q) : Ends nfa p

theorem ends_of_accept {p : Path} (hp : nfa.state p.state = .accept) : p.Ends nfa :=
  .extend (show p.extend? nfa = some [] by simp [extend?, hp]) (by simp)

end Path

namespace Nfa

variable {nfa : Nfa} {limit budget size : Nat} {stack found paths : List Path}

/-- A finished path, as they are collected. -/
structure Finishes (nfa : Nfa) (size : Nat) (p : Path) : Prop where
  accepts : nfa.state p.state = .accept
  size_slots : p.slots.size = size

/-- Following the pending paths in order keeps what the first of them finds. -/
theorem acceptAlong_spec (h : nfa.Grounded) (hd : nfa.direction = .forward)
    (halong : nfa.acceptAlong limit budget stack found = some paths)
    (hstack : ∀ p ∈ stack, p.slots.size = size) (hfound : ∀ p ∈ found, nfa.Finishes size p)
    (hlimit : found.length ≤ limit) :
    paths.length ≤ limit ∧ (∀ p ∈ paths, nfa.Finishes size p) ∧
      ∀ (text : Text) (start : Nat), paths.findSome? (Path.result? h text start) =
        (found.reverse ++ stack).findSome? (Path.result? h text start) := by
  induction budget generalizing stack found with
  | zero =>
    cases stack with
    | cons p rest => simp [acceptAlong] at halong
    | nil =>
      obtain rfl := Option.some.inj halong
      exact ⟨by simpa using hlimit, fun p hp => hfound p (List.mem_reverse.mp hp), by simp⟩
  | succ budget ih =>
    cases stack with
    | nil =>
      obtain rfl := Option.some.inj halong
      exact ⟨by simpa using hlimit, fun p hp => hfound p (List.mem_reverse.mp hp), by simp⟩
    | cons p rest =>
      have hrest : ∀ q ∈ rest, q.slots.size = size := fun q hq => hstack q (by simp [hq])
      rw [acceptAlong] at halong
      split at halong
      · rename_i haccept
        split at halong
        · simp at halong
        · have hkept : ∀ q ∈ p :: found, nfa.Finishes size q := by
            intro q hq
            rcases List.mem_cons.mp hq with rfl | hq
            · exact ⟨haccept, hstack q (by simp)⟩
            · exact hfound q hq
          obtain ⟨hlength, hall, hvalue⟩ :=
            ih halong hrest hkept (by simp only [List.length_cons]; omega)
          refine ⟨hlength, hall, fun text start => ?_⟩
          rw [hvalue]
          simp
      · rename_i haccept
        split at halong
        · simp at halong
        · rename_i next hextend
          have hnext : ∀ q ∈ next ++ rest, q.slots.size = size := by
            intro q hq
            rcases List.mem_append.mp hq with hq | hq
            · exact (Path.size_slots_of_mem_extend? hextend hq).trans (hstack p (by simp))
            · exact hrest q hq
          obtain ⟨hlength, hall, hvalue⟩ := ih halong hnext hfound hlimit
          refine ⟨hlength, hall, fun text start => ?_⟩
          rw [hvalue, List.findSome?_append, List.findSome?_append, List.findSome?_append,
            Path.findSome?_extend? h hd haccept hextend, List.findSome?_cons]
          cases p.result? h text start <;> rfl

/-- Where all paths have been followed, all they lead to is known. -/
theorem ends_of_acceptAlong (halong : nfa.acceptAlong limit budget stack found = some paths) :
    ∀ p ∈ stack, p.Ends nfa := by
  induction budget generalizing stack found with
  | zero =>
    cases stack with
    | nil => simp
    | cons p rest => simp [acceptAlong] at halong
  | succ budget ih =>
    cases stack with
    | nil => simp
    | cons p rest =>
      rw [acceptAlong] at halong
      split at halong
      · rename_i haccept
        split at halong
        · simp at halong
        · exact List.forall_mem_cons.mpr ⟨Path.ends_of_accept haccept, ih halong⟩
      · split at halong
        · simp at halong
        · rename_i next hextend
          have hall := ih halong
          exact List.forall_mem_cons.mpr
            ⟨.extend hextend fun q hq => hall q (List.mem_append_left _ hq),
              fun q hq => hall q (List.mem_append_right _ hq)⟩

end Nfa

namespace Pattern.Compiled

variable {p : Pattern} {nfa : Nfa} {limit : Nat} {paths : List Path}

/-- The finished paths are those that pending ones lead to. -/
theorem allPaths?_spec (h : p.Compiled nfa) (hpaths : nfa.allPaths? limit = some paths) :
    paths.length ≤ limit ∧ (∀ q ∈ paths, nfa.Finishes (2 * p.groupCount) q) ∧
      ∀ (text : Text) (start : Nat),
        paths.findSome? (Path.result? h.realizes.grounded text start) =
          Path.result? h.realizes.grounded text start
            ⟨nfa.start, [], Slots.unset nfa.groupCount, false⟩ := by
  unfold Nfa.allPaths? at hpaths
  split at hpaths
  · have hfirst : ∀ q ∈ [(⟨nfa.start, [], Slots.unset nfa.groupCount, false⟩ : Path)],
        q.slots.size = 2 * p.groupCount := by
      simp [Slots.unset, h.groupCount]
    obtain ⟨hlength, hall, hvalue⟩ := Nfa.acceptAlong_spec h.realizes.grounded h.direction hpaths
      hfirst (by simp) (Nat.zero_le limit)
    refine ⟨hlength, hall, fun text start => ?_⟩
    rw [hvalue, List.reverse_nil, List.nil_append, List.findSome?_singleton]
  · simp at hpaths

/-- The preferred match at a position is that of the first path that fits. -/
theorem matchAt?_eq_find? (h : p.Compiled nfa) (hpaths : nfa.allPaths? limit = some paths)
    {text : Text} {start : Nat} (hstart : start ≤ text.size) :
    p.matchAt? text start = (paths.find? (·.fits text start)).map fun q =>
      ⟨start + q.length, q.slots.movedBy start⟩ := by
  obtain ⟨-, hall, hvalue⟩ := h.allPaths?_spec hpaths
  have hfirst := hvalue text start
  have hthread : Path.thread nfa start ⟨nfa.start, [], Slots.unset nfa.groupCount, false⟩ =
      Thread.initial nfa := by
    rw [Path.thread, Slots.movedBy_unset, Thread.initial]
  rw [Path.result?, if_pos (by simp [Path.fits, Text.matchesAt]), hthread, Path.length,
    List.length_nil, Nat.add_zero, h.first_eq hstart] at hfirst
  rw [← hfirst, List.find?_eq_findSome?_guard, List.map_findSome?]
  refine findSome?_congr fun q hq => ?_
  rw [Path.result?_of_accept h.realizes.grounded (hall q hq).accepts, Function.comp_apply,
    Option.guard]
  split <;> rfl

end Pattern.Compiled

end UnitRegex
