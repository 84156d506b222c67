import UnitRegex.Proofs.Automaton.Compile

/-!
Entries of an automaton. Each one skips a number of units in front of the pattern, and a searching
one may skip more.
-/

namespace UnitRegex

namespace Nfa

/-- A state reads a number of units, whatever they are, and goes on at `target`. -/
inductive Skips (nfa : Nfa) (target : Nat) : Nat → Nat → Prop
  | here : Skips nfa target 0 target
  | skip {count s next : Nat} (h : nfa.state s = .unit .full next)
    (hnext : Skips nfa target count next) : Skips nfa target (count + 1) s

/-- The entry with the number `i` skips `i` units, for all `i` up to `context`. -/
structure Lead (nfa : Nfa) (target context : Nat) (entries : List Nat) : Prop where
  length : entries.length = context + 1
  skips : ∀ i s, entries[i]? = some s → nfa.Skips target i s
  ascending : entries.Pairwise (· < ·)

theorem Lead.single (nfa : Nfa) (target : Nat) : nfa.Lead target 0 [target] where
  length := rfl
  skips i s h := by
    cases i with
    | zero =>
      obtain rfl := Option.some.inj h
      exact .here
    | succ i => simp at h
  ascending := List.pairwise_singleton _ _

theorem Lead.push {nfa : Nfa} {target context : Nat} {entries : List Nat} {last s : Nat}
    (h : nfa.Lead target context entries) (hlast : nfa.Skips target context last)
    (hs : nfa.state s = .unit .full last) (hnew : ∀ t ∈ entries, t < s) :
    nfa.Lead target (context + 1) (entries ++ [s]) where
  length := by simp [h.length]
  ascending := List.pairwise_append.mpr ⟨h.ascending, List.pairwise_singleton _ _,
    fun t ht t' ht' => List.mem_singleton.mp ht' ▸ hnew t ht⟩
  skips i t ht := by
    by_cases hlt : i < entries.length
    · rw [List.getElem?_append_left hlt] at ht
      exact h.skips i t ht
    · rw [List.getElem?_append_right (by omega)] at ht
      obtain ⟨hzero, rfl⟩ : i = context + 1 ∧ s = t := by
        have := h.length
        cases hsub : i - entries.length with
        | zero => exact ⟨by omega, by simpa [hsub] using ht⟩
        | succ n => simp [hsub] at ht
      rw [hzero]
      exact .skip hs hlast

/-- Where a search begins: at the pattern if it is sticky, and else in front of a split that prefers
the pattern to the next unit. -/
inductive Searches (nfa : Nfa) : Bool → Nat → Prop
  | sticky : Searches nfa true nfa.start
  | searching {split skip : Nat} (hsplit : nfa.state split = .split [nfa.start, skip])
    (hskip : nfa.state skip = .unit .full split) : Searches nfa false split

end Nfa

/-- States that read a unit or choose between the pattern and one of them have been added. -/
structure Draft.AddsEntries (start : Nat) (before after : Draft) : Prop where
  grows : before.Grows after
  sound : ∀ {context d}, before.Sound context d → after.Sound context d
  counters : after.counters = before.counters
  added : ∀ nfa : Nfa, nfa.Extends after 0 → ∀ s, before.nodes.size ≤ s → s < after.nodes.size →
    ∀ counts, nfa.Settles (fun b => b.1 = start) (s, counts)

namespace Draft.AddsEntries

variable {start : Nat} {a b c : Draft}

theorem refl (start : Nat) (draft : Draft) : draft.AddsEntries start draft :=
  ⟨.refl draft, id, rfl, fun _ _ _ _ _ => by omega⟩

theorem trans (h : a.AddsEntries start b) (h' : b.AddsEntries start c) :
    a.AddsEntries start c where
  grows := h.grows.trans h'.grows
  sound hs := h'.sound (h.sound hs)
  counters := h'.counters.trans h.counters
  added nfa hext s hlo hhi := by
    by_cases hs : s < b.nodes.size
    · exact h.added nfa (hext.of_grows h'.grows) s hlo hs
    · exact h'.added nfa hext s (by omega) hhi

/-- A state that reads a unit. -/
theorem skip {plan : BuildPlan} {origin next id : Nat} {set : CharSet}
    (h : plan.add origin (.unit set next) a = .ok (id, b)) :
    a.AddsEntries start b := by
  obtain ⟨hgrows, -, hsize, hnode, -, -, hcounters⟩ := Build.grows_of_add h
  refine ⟨hgrows, fun hs => hs.add h trivial, hcounters,
    fun nfa hext s hlo hhi counts => .go fun t ht => ?_⟩
  obtain rfl : s = a.nodes.size := by omega
  rw [Nfa.epsilon, hext.state (Nat.zero_le _) hnode] at ht
  simp at ht

end Draft.AddsEntries

namespace BuildPlan

variable {plan : BuildPlan} {layout : IdLayout} {start search : Nat}

theorem addEntries_spec {count skipped lastAnchored lastUnanchored : Nat}
    {anchored unanchored anchored' unanchored' : List Nat} {before after : Draft}
    (h : plan.addEntries layout anchored unanchored lastAnchored lastUnanchored skipped count
      before = .ok ((anchored', unanchored'), after)) :
    before.AddsEntries start after ∧ ∀ (nfa : Nfa) (context : Nat), nfa.Extends after 0 →
      (nfa.Lead start context anchored → nfa.Skips start context lastAnchored →
        (∀ s ∈ anchored, s < before.nodes.size) → nfa.Lead start (context + count) anchored') ∧
      (nfa.Lead search context unanchored → nfa.Skips search context lastUnanchored →
        (∀ s ∈ unanchored, s < before.nodes.size) →
        nfa.Lead search (context + count) unanchored') := by
  induction count generalizing skipped lastAnchored lastUnanchored anchored unanchored before with
  | zero =>
    obtain ⟨he, rfl⟩ := Build.pure_eq_ok.mp h
    obtain ⟨rfl, rfl⟩ := Prod.mk.inj he
    exact ⟨.refl _ _, fun nfa context _ => ⟨fun h _ _ => h, fun h _ _ => h⟩⟩
  | succ count ih =>
    obtain ⟨a, first, hadd, h⟩ := Build.bind_eq_ok.mp h
    obtain ⟨u, second, hadd', hrest⟩ := Build.bind_eq_ok.mp h
    obtain ⟨hrestAdds, hrestLead⟩ := ih hrest
    refine ⟨((Draft.AddsEntries.skip hadd).trans (.skip hadd')).trans hrestAdds,
      fun nfa context hext => ?_⟩
    obtain ⟨hgrows, rfl, hsize, hnode, -⟩ := Build.grows_of_add hadd
    obtain ⟨hgrows', rfl, hsize', hnode', -⟩ := Build.grows_of_add hadd'
    have hsecond := hext.of_grows hrestAdds.grows
    have ha := (hsecond.of_grows hgrows').state (Nat.zero_le _) hnode
    have hu := hsecond.state (Nat.zero_le _) hnode'
    obtain ⟨hleft, hright⟩ := hrestLead nfa (context + 1) hext
    rw [show context + (count + 1) = context + 1 + count by omega]
    have hnew : ∀ {entries : List Nat} {s : Nat}, (∀ t ∈ entries, t < before.nodes.size) →
        s < second.nodes.size → ∀ t ∈ entries ++ [s], t < second.nodes.size := by
      intro entries s hold hs t ht
      rcases List.mem_append.mp ht with ht | ht
      · have := hold t ht
        omega
      · exact List.mem_singleton.mp ht ▸ hs
    exact ⟨fun h hlast hold => hleft (h.push hlast ha hold) (.skip ha hlast) (hnew hold (by omega)),
      fun h hlast hold => hright (h.push hlast hu fun t ht => by have := hold t ht; omega)
        (.skip hu hlast) (hnew hold (by omega))⟩

theorem addSearchLoop_spec {before after : Draft}
    (h : plan.addSearchLoop layout start before = .ok (search, after)) :
    before.AddsEntries start after ∧ search < after.nodes.size ∧
      ∀ nfa : Nfa, nfa.start = start → nfa.Extends after 0 → nfa.Searches false search := by
  obtain ⟨split, first, hadd, hrun⟩ := Build.bind_eq_ok.mp h
  obtain ⟨skip, second, hadd', hrun⟩ := Build.bind_eq_ok.mp hrun
  obtain ⟨u, patched, hput, hpure⟩ := Build.bind_eq_ok.mp hrun
  obtain ⟨rfl, rfl⟩ := Build.pure_eq_ok.mp hpure
  obtain ⟨hgrows, rfl, hsize, -, -, -, hcounters⟩ := Build.grows_of_add hadd
  obtain ⟨hgrows', rfl, hsize', hnode', -, -, hcounters'⟩ := Build.grows_of_add hadd'
  have hpatched := Build.put_eq_ok hput
  have hstates : ∀ nfa : Nfa, nfa.Extends after 0 →
      nfa.state before.nodes.size = .split [start, first.nodes.size] ∧
      nfa.state first.nodes.size = .unit .full before.nodes.size := by
    intro nfa hext
    rw [hpatched] at hext
    refine ⟨hext.state_of_put (Nat.zero_le _) (by omega), ?_⟩
    have hbehindSplit : nfa.Extends second first.nodes.size :=
      (hext.mono (Nat.zero_le first.nodes.size)).of_put (by omega)
    exact hbehindSplit.state (Nat.le_refl _) hnode'
  refine ⟨⟨hpatched ▸ (hgrows.trans hgrows').put (Nat.le_refl _), fun hs =>
      hpatched ▸ ((hs.add hadd trivial).add hadd' trivial).put trivial, ?_,
    fun nfa hext s hlo hhi counts => ?_⟩, ?_, fun nfa hstart hext => ?_⟩
  · rw [hpatched, hcounters', hcounters]
  · obtain ⟨hsplit, hskip⟩ := hstates nfa hext
    have hskipSettles : ∀ counts,
        nfa.Settles (fun b => b.1 = start) (first.nodes.size, counts) := by
      intro counts
      refine .go fun b hb => ?_
      simp [Nfa.epsilon, hskip] at hb
    rw [hpatched] at hhi
    simp only [Array.size_modify] at hhi
    by_cases hs : s = before.nodes.size
    · subst hs
      refine .go fun b hb => ?_
      simp only [Nfa.epsilon, hsplit, List.map_cons, List.map_nil, List.mem_cons, List.not_mem_nil,
        or_false] at hb
      rcases hb with rfl | rfl
      · exact .stop rfl
      · exact hskipSettles counts
    · obtain rfl : s = first.nodes.size := by omega
      exact hskipSettles counts
  · rw [hpatched, Array.size_modify]
    omega
  · obtain ⟨hsplit, hskip⟩ := hstates nfa hext
    rw [← hstart] at hsplit
    exact .searching hsplit hskip

end BuildPlan

end UnitRegex
