import UnitRegex.Proofs.Table.BackwardPlaces
import UnitRegex.Proofs.Table.Walks

/-!
The backward table finds the smallest start of the stretches that end at a position. A subset of the
table leads to a start if one of its threads does, or if it tells that a match starts here.
-/

namespace UnitRegex

namespace BackwardSubset

variable {nfa : Nfa} {text : Text} {cursor i : Nat} {atEnd : Bool}

/-- A match starts at a position if a subset has been reached at another. -/
def Starts (nfa : Nfa) (text : Text) (cursor i : Nat) (key : BackwardSubset) : Prop :=
  (∃ t ∈ key.threads, (∃ set next, nfa.state t.1 = .unit set next) ∧
      nfa.LeadsFrom text cursor t i) ∨
    (i = cursor ∧ (key.starts = true ∨ cursor = 0 ∧ key.startsAtEdge = true))

theorem not_starts_empty : ¬empty.Starts nfa text cursor i := by
  simp [Starts, empty]

/-- What a visit to a new place notes is where the place leads. -/
theorem starts_visit (hd : nfa.direction = .backward) {p : BackwardPlace} {key : BackwardSubset}
    {seen : Std.HashSet BackwardPlace} (hnew : p ∉ seen)
    (hhere : (∃ set next, nfa.state p.state = .unit set next) ∨ nfa.state p.state = .accept) :
    ∃ key', visit nfa atEnd p (seen, key) = .go [] (seen.insert p, key') ∧
      (key'.Starts nfa text cursor i ↔
        key.Starts nfa text cursor i ∨ p.Leads nfa text cursor i) := by
  have hcontains : seen.contains p = false := by simpa using hnew
  rcases hhere with ⟨set, next, hs⟩ | hs
  · simp only [visit, hcontains, Bool.false_eq_true, if_false, hs]
    cases hcaret : p.caret with
    | true =>
      -- At the start of the input no unit is left to read.
      refine ⟨_, rfl, ?_⟩
      rw [if_pos rfl, or_iff_left]
      rintro ⟨hzero, hleads⟩
      have hlt := Nfa.lt_of_leadsFrom_unit hd hs hleads
      have := hzero hcaret
      omega
    | false =>
      refine ⟨_, rfl, ?_⟩
      simp only [Bool.false_eq_true, if_false, Starts, List.exists_mem_cons_iff,
        BackwardPlace.Leads, hcaret, hs]
      constructor
      · rintro ((⟨-, hleads⟩ | hmem) | hhere)
        · exact .inr ⟨by simp, hleads⟩
        · exact .inl (.inl hmem)
        · exact .inl (.inr hhere)
      · rintro ((hmem | hhere) | ⟨-, hleads⟩)
        · exact .inl (.inr hmem)
        · exact .inr hhere
        · exact .inl (.inl ⟨⟨set, next, rfl⟩, hleads⟩)
  · simp only [visit, hcontains, Bool.false_eq_true, if_false, hs]
    refine ⟨_, rfl, ?_⟩
    have hleads : p.Leads nfa text cursor i ↔ (p.caret = true → cursor = 0) ∧ i = cursor := by
      rw [BackwardPlace.Leads, Nfa.leadsFrom_of_accept hs]
    rw [hleads]
    cases p.caret with
    | true =>
      simp only [if_true, Starts, forall_const]
      constructor
      · rintro (hmem | ⟨hi, hstarts | ⟨hzero, -⟩⟩)
        · exact .inl (.inl hmem)
        · exact .inl (.inr ⟨hi, .inl hstarts⟩)
        · exact .inr ⟨hzero, hi⟩
      · rintro ((hmem | ⟨hi, hstarts | ⟨hzero, -⟩⟩) | ⟨hzero, hi⟩)
        · exact .inl hmem
        · exact .inr ⟨hi, .inl hstarts⟩
        · exact .inr ⟨hi, .inr ⟨hzero, trivial⟩⟩
        · exact .inr ⟨hi, .inr ⟨hzero, trivial⟩⟩
    | false =>
      simp only [Bool.false_eq_true, if_false, Starts, true_or, and_true, false_implies, true_and]
      constructor
      · rintro (hmem | hi)
        · exact .inl (.inl hmem)
        · exact .inr hi
      · rintro ((hmem | ⟨hi, -⟩) | hi)
        · exact .inl hmem
        · exact .inr hi
        · exact .inr hi

theorem visit_other {p : BackwardPlace} {key : BackwardSubset}
    {seen : Std.HashSet BackwardPlace} (hnew : p ∉ seen)
    (hunit : ∀ set next, nfa.state p.state ≠ .unit set next)
    (haccept : nfa.state p.state ≠ .accept) :
    visit nfa atEnd p (seen, key) = .go (p.successors nfa atEnd) (seen.insert p, key) := by
  have hcontains : seen.contains p = false := by simpa using hnew
  simp only [visit, hcontains, Bool.false_eq_true, if_false]

/-- Exploring a place adds the starts that it leads to. -/
theorem valuation (hgrounded : nfa.Grounded) (hd : nfa.direction = .backward)
    (hguard : ∀ s, (nfa.state s).GuardIn .backward nfa.lookAheads.length)
    (hatEnd : atEnd = true ↔ cursor = text.size) (i : Nat) :
    Valuation (visit nfa atEnd) id
      (fun q p => (q.state, q.counts) ∈ nfa.epsilon (p.state, p.counts)) (fun _ => True)
      (fun _ => True) (fun _ => False) (fun found p => p ∈ found.1)
      (fun p => found? (p.Leads nfa text cursor i))
      (fun found => found? (found.2.Starts nfa text cursor i)) where
  wellFounded := InvImage.wf (fun p : BackwardPlace => (p.state, p.counts))
    ⟨fun a => Nfa.acc_of_settles (hgrounded a)⟩
  same p q _ _ hpq hp := by
    obtain rfl : p = q := hpq
    exact hp
  seen p found _ _ hmem := by
    obtain ⟨seen, key⟩ := found
    have hcontains : seen.contains p = true := by simpa using hmem
    exact ⟨(seen, key), by simp only [visit, hcontains, if_true], trivial, rfl, fun k hk => hk⟩
  fresh p found _ _ hnew := by
    obtain ⟨seen, key⟩ := found
    have hnew : p ∉ seen := hnew
    have hmarks : ∀ k, k ∈ seen.insert p → k = p ∨ k ∈ seen := by
      intro k hk
      rw [Std.HashSet.mem_insert] at hk
      exact hk.imp (fun h => (eq_of_beq h).symm) id
    left
    by_cases hhere : (∃ set next, nfa.state p.state = .unit set next) ∨
        nfa.state p.state = .accept
    · obtain ⟨key', hvisit, hstarts⟩ := starts_visit hd hnew hhere
      refine ⟨[], (seen.insert p, key'), found? (p.Leads nfa text cursor i), hvisit, trivial, ?_,
        by simp, hmarks, by simp⟩
      rw [← found?_or]
      exact found?_congr hstarts
    · have hunit : ∀ set next, nfa.state p.state ≠ .unit set next := fun set next hs =>
        hhere (.inl ⟨set, next, hs⟩)
      have haccept : nfa.state p.state ≠ .accept := fun hs => hhere (.inr hs)
      refine ⟨p.successors nfa atEnd, (seen.insert p, key), none,
        visit_other hnew hunit haccept, trivial, by rw [Option.or_none], ?_, hmarks,
        fun q hq => ⟨trivial, BackwardPlace.mem_epsilon_of_mem_successors hq⟩⟩
      rw [Option.none_or, findSome?_found?]
      exact found?_congr (BackwardPlace.leads_iff_successors hguard hatEnd hunit haccept)

/-- Sorting the threads does not change where they lead. -/
theorem starts_sorted (key : BackwardSubset) :
    { key with threads := (key.threads.mergeSort threadLe).eraseReps }.Starts nfa text cursor i ↔
      key.Starts nfa text cursor i := by
  simp only [Starts, mem_eraseReps, List.mem_mergeSort]

/-- The subset that some places lead to has their starts. -/
theorem starts_ofPlaces (hgrounded : nfa.Grounded) (hd : nfa.direction = .backward)
    (hguard : ∀ s, (nfa.state s).GuardIn .backward nfa.lookAheads.length)
    (hatEnd : atEnd = true ↔ cursor = text.size) (places : List BackwardPlace) :
    (ofPlaces nfa places atEnd).Starts nfa text cursor i ↔
      ∃ p ∈ places, p.Leads nfa text cursor i := by
  have hsettled : Valuation.Settled (fun _ : BackwardPlace => True) id
      (fun found p => p ∈ found.1) (fun p => found? (p.Leads nfa text cursor i))
      (fun found => found? (found.2.Starts nfa text cursor i))
      ((∅, empty) : Std.HashSet BackwardPlace × BackwardSubset) := by
    intro p _ hmem
    exact absurd hmem Std.HashSet.not_mem_empty
  obtain ⟨hworth, -⟩ := (valuation hgrounded hd hguard hatEnd i).explore_spec
    (fun p (_ : p ∈ places) => trivial) trivial hsettled
  rw [findSome?_found?, found?_of_not not_starts_empty, Option.none_or] at hworth
  have hiff := congrArg (fun found => found.isSome = true) hworth
  simp only [isSome_found?] at hiff
  rw [ofPlaces, starts_sorted, hiff]

/-- Reading the unit in front of a position leads to the subset of the same starts. -/
theorem starts_after (hgrounded : nfa.Grounded) (hd : nfa.direction = .backward)
    (hguard : ∀ s, (nfa.state s).GuardIn .backward nfa.lookAheads.length) {u : CodeUnit}
    (hu : text[cursor]? = some u) (hi : i ≤ cursor) (key : BackwardSubset) :
    key.Starts nfa text (cursor + 1) i ↔ (after nfa key u).Starts nfa text cursor i := by
  obtain ⟨hlt, -⟩ := Array.getElem?_eq_some_iff.mp hu
  have hne : i ≠ cursor + 1 := by omega
  rw [after, starts_ofPlaces hgrounded hd hguard (by simp; omega), Starts]
  simp only [hne, false_and, or_false, List.mem_filterMap]
  constructor
  · rintro ⟨t, ht, ⟨set, next, hs⟩, hleads⟩
    obtain ⟨hset, hnext⟩ := (Nfa.leadsFrom_of_unit hd hs hu).mp hleads
    exact ⟨⟨next, false, t.2⟩, ⟨t, ht, by simp [hs, hset]⟩, by simp, hnext⟩
  · rintro ⟨p, ⟨t, ht, hp⟩, -, hleads⟩
    refine ⟨t, ht, ?_⟩
    split at hp
    · rename_i set next hs
      split at hp
      · rename_i hset
        obtain rfl := Option.some.inj hp
        exact ⟨⟨set, next, hs⟩, (Nfa.leadsFrom_of_unit hd hs hu).mpr ⟨hset, hleads⟩⟩
      · simp at hp
    · simp at hp

theorem respects (nfa : Nfa) : (powerset nfa).Respects := by
  intro key c c' h
  show after nfa key c = after nfa key c'
  rw [after, after]
  congr 1
  refine List.filterMap_congr fun t ht => ?_
  split
  · rename_i set next hs
    rw [h set (List.mem_filterMap.mpr ⟨t, ht, by simp [hs]⟩)]
  · rfl

/-- What the table reports of a subset at a position. -/
def report (key : BackwardSubset) (cursor : Nat) : Option Unit :=
  if key.starts || (cursor == 0 && key.startsAtEdge) then some () else none

theorem report_eq (hd : nfa.direction = .backward) (key : BackwardSubset) (cursor : Nat) :
    found? (key.Starts nfa text cursor cursor) = key.report cursor := by
  have hstarts : key.Starts nfa text cursor cursor ↔
      (key.starts || (cursor == 0 && key.startsAtEdge)) = true := by
    rw [Starts, or_iff_right]
    · simp
    · rintro ⟨t, -, ⟨set, next, hs⟩, hleads⟩
      exact absurd (Nfa.lt_of_leadsFrom_unit hd hs hleads) (Nat.lt_irrefl cursor)
  rw [report, found?]
  simp only [hstarts]

theorem not_starts_of_dead {key : BackwardSubset} (h : (powerset nfa).dead key = true) :
    ¬key.Starts nfa text cursor i := by
  simp only [powerset, Bool.and_eq_true, List.isEmpty_iff, Bool.not_eq_true'] at h
  simp [Starts, h]

end BackwardSubset

/-- The backward table of a pattern finds where the first stretch starts that ends at a position. -/
theorem Pattern.CompiledBack.firstStart?_eq {p : Pattern} {nfa : Nfa} (h : p.CompiledBack nfa)
    {maxStates : Nat} {dfa : Dfa} (htable : nfa.backwardTable maxStates = .ok dfa) {text : Text}
    {start stop : Nat} (hstart : start ≤ stop) (hstop : stop ≤ text.size) :
    dfa.firstStart? text (dfa.entry (BackwardSubset.entryFor stop text.size)) stop start =
      (List.range' start (stop + 1 - start)).findSome? fun i =>
        (found? (p.root.Spans p.flags text i stop)).map fun _ => i := by
  obtain ⟨keys, -, ht⟩ := Powerset.tabulates_of_tabulate (BackwardSubset.respects nfa) htable
  let first : BackwardPlace := ⟨nfa.start, false, List.replicate nfa.counters 0⟩
  have hkey : (BackwardSubset.initial nfa)[BackwardSubset.entryFor stop text.size]? =
      some (BackwardSubset.ofPlaces nfa [first] (decide (stop = text.size))) := by
    by_cases hend : stop = text.size <;>
      simp [BackwardSubset.initial, BackwardSubset.entryFor, first, hend]
  have hleads : ∀ i, (BackwardSubset.ofPlaces nfa [first] (decide (stop = text.size))).Starts nfa
      text stop i ↔ p.root.Spans p.flags text i stop := by
    intro i
    rw [BackwardSubset.starts_ofPlaces h.grounded h.direction h.guards (by simp)]
    simp only [List.mem_singleton, exists_eq_left, BackwardPlace.Leads, first]
    rw [← h.leads text stop i hstop]
    simp [Nfa.LeadsFrom]
  have hdead : ∀ (key : BackwardSubset) (cursor i : Nat),
      (BackwardSubset.powerset nfa).dead key = true →
      found? (key.Starts nfa text cursor i) = none := fun _ _ _ hdead =>
    found?_of_not (BackwardSubset.not_starts_of_dead hdead)
  have hreport : ∀ (key : BackwardSubset) (i j : Nat), i ≤ j → (key.report j).isSome = true →
      (key.report i).isSome = true := by
    intro key i j hle hsome
    by_cases hj : j = 0
    · obtain rfl : i = j := by omega
      exact hsome
    · have hstarts : key.starts = true := by simpa [BackwardSubset.report, hj] using hsome
      simp [BackwardSubset.report, hstarts]
  rw [Dfa.firstStart?, Dfa.walkBack_eq_earliest ht
    (fun key s cursor hs => by rw [hs.acceptance]; rfl) hreport hdead
    (fun _ key cursor _ => BackwardSubset.report_eq h.direction key cursor)
    (fun _ key cursor u i _ hu hi => found?_congr
      (BackwardSubset.starts_after h.grounded h.direction h.guards hu hi key))
    hkey hstart hstop, Dfa.earliest, List.map_findSome?]
  refine findSome?_congr fun i _ => ?_
  rw [Function.comp_apply, Option.map_map, found?_congr (hleads i)]
  rfl

end UnitRegex
