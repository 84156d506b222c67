import UnitRegex.Proofs.Automaton.Entries
import UnitRegex.Proofs.Backtrack.Meaning

/-!
The whole automaton of a pattern. From its start a depth-first search accepts exactly the outcomes
of the pattern, the preferred one first, and nowhere can it go on forever without reading.
-/

namespace UnitRegex

namespace Nfa

/-- An automaton leads from its start to the states of a behavior. -/
structure Realizes (nfa : Nfa) (f : Text → Behavior) : Prop where
  grounded : nfa.Grounded
  yields : ∀ (text : Text) (x : Configuration), x.cursor ≤ text.size →
    nfa.counters ≤ x.thread.counts.length →
    nfa.Yields text 0 nfa.size (fun y => nfa.state y.state = .accept) [x.goTo nfa.start]
      (f text x.matchState)

/-- What the search finds first is the preferred outcome. -/
theorem Realizes.first_eq {nfa : Nfa} {f : Text → Behavior} (h : nfa.Realizes f) {text : Text}
    {x : Configuration} (hx : x.cursor ≤ text.size)
    (hcounts : nfa.counters ≤ x.thread.counts.length) :
    (nfa.first h.grounded text text.size (x.goTo nfa.start)).map Configuration.matchState =
      (f text x.matchState).head? := by
  obtain ⟨after, hmap, haccept, hunfold⟩ := h.yields text x hx hcounts
  have hfirst := hunfold.findSome?_first h.grounded
  have hall : after.findSome? (nfa.first h.grounded text text.size) = after.head? := by
    cases after with
    | nil => rfl
    | cons y rest =>
      rw [List.findSome?_cons, first_of_accept h.grounded (haccept y (by simp))]
      rfl
  rw [hall] at hfirst
  rw [← hmap, List.head?_map, ← hfirst]
  cases h : nfa.first _ text text.size (x.goTo nfa.start) <;> simp [h]

end Nfa

theorem Draft.Sound.guardIn_state {context : Nat} {d : Direction} {draft : Draft}
    (h : draft.Sound context d) {nfa : Nfa} (hnodes : nfa.nodes = draft.nodes)
    (hahead : nfa.lookAheads = draft.lookAheads) (s : Nat) :
    (nfa.state s).GuardIn d nfa.lookAheads.length := by
  rw [Nfa.state, hahead]
  cases hs : nfa.nodes[s]? with
  | none => trivial
  | some n => exact h.guards n (hnodes ▸ Array.mem_of_getElem? hs)

/-- The automaton of a pattern to the right, with its entries. -/
structure Pattern.Compiled (p : Pattern) (nfa : Nfa) : Prop where
  realizes : nfa.Realizes p.outcomes
  direction : nfa.direction = .forward
  groupCount : nfa.groupCount = p.groupCount
  lookBehinds : ∀ body ∈ nfa.lookBehinds, body.length ≤ p.context
  lookAheads : ∀ body ∈ nfa.lookAheads, body.length ≤ BuildPlan.maxLookAheadBranches
  guards : ∀ s, (nfa.state s).GuardIn nfa.direction nfa.lookAheads.length
  anchored : nfa.Lead nfa.start p.context nfa.anchored
  unanchored : ∃ search, nfa.Searches p.flags.sticky search ∧
    nfa.Lead search p.context nfa.unanchored

namespace BuildPlan

variable {plan : BuildPlan} {p : Pattern}

/-- The draft of an automaton in front of its entries realizes the behavior of the root. -/
theorem realizes_of_emits {context accept start : Nat} {first second third : Draft} {n : Bool}
    {f : Text → Behavior} {origin : Nat}
    (hadd : plan.add origin .accept {} = .ok (accept, first))
    (hroot : ∀ text, Emitted context plan.direction text first second [start] accept (f text) n)
    (hentries : second.AddsEntries start third) {nfa : Nfa} (hstart : nfa.start = start)
    (hnodes : nfa.nodes = third.nodes) (hbehind : nfa.lookBehinds = third.lookBehinds)
    (hahead : nfa.lookAheads = third.lookAheads) (hcounters : nfa.counters = third.counters)
    (hd : nfa.direction = plan.direction) : nfa.Realizes f := by
  obtain ⟨hgrows, rfl, hsize, hnode, -, -, -⟩ := Build.grows_of_add hadd
  have hext : nfa.Extends third 0 :=
    ⟨fun s _ _ => by rw [hnodes], hbehind ▸ List.prefix_refl _, hahead ▸ List.prefix_refl _⟩
  have hsecond := hext.of_grows hentries.grows
  have haccept : nfa.state 0 = .accept :=
    (hsecond.of_grows (hroot #[]).grows).state (Nat.le_refl 0) hnode
  simp only at hsize hroot
  have hstop : ∀ counts, nfa.Settles (fun _ => False) (0, counts) := by
    intro counts
    refine .go fun b hb => ?_
    simp [Nfa.epsilon, haccept] at hb
  have hfragment : ∀ text, Fragment nfa text (f text) n first.counters second.counters
      first.nodes.size second.nodes.size [start] 0 := fun text =>
    (hroot text).fragment nfa hd (hsecond.mono (Nat.zero_le _))
  have hinside : ∀ s, first.nodes.size ≤ s → s < second.nodes.size → ∀ counts,
      nfa.Settles (fun _ => False) (s, counts) := by
    intro s hlo hhi counts
    refine ((hfragment #[]).settles s hlo hhi counts).bind ?_
    rintro ⟨t, counts'⟩ rfl
    exact hstop counts'
  have hentry : ∀ counts, nfa.Settles (fun _ => False) (start, counts) := by
    intro counts
    rcases (hfragment #[]).entries_in start (by simp) with rfl | h
    · exact hstop counts
    · exact hinside start h.1 h.2 counts
  refine ⟨?_, ?_⟩
  · rintro ⟨s, counts⟩
    by_cases hzero : s = 0
    · rw [hzero]
      exact hstop counts
    by_cases hroots : s < second.nodes.size
    · exact hinside s (by simp at hsize; omega) hroots counts
    by_cases hleads : s < third.nodes.size
    · refine (hentries.added nfa hext s (by omega) hleads counts).bind ?_
      rintro ⟨t, counts'⟩ rfl
      exact hentry counts'
    · refine .go fun b hb => ?_
      have hnone : nfa.nodes[s]? = none := by
        rw [hnodes, Array.getElem?_eq_none (by omega)]
      simp [Nfa.epsilon, Nfa.state, hnone] at hb
  · intro text x hx hcounts
    rw [hcounters, hentries.counters] at hcounts
    have hyields := (hfragment text).yields x hx hcounts
    rw [hstart]
    refine (hyields.imp fun y hy => by rw [hy.state, haccept]).mono fun a b h => ?_
    refine h.mono (Nat.zero_le _) ?_
    rw [Nfa.size, hnodes]
    exact hentries.grows.size_le

/-- The search loop is built unless the pattern is sticky. -/
theorem searchLoop_eq_ok {α : Type} {rest : Nat → Build α} {start : Nat} {second after : Draft}
    {a : α}
    (h : (if p.flags.sticky then pure start >>= rest
      else plan.addSearchLoop p.layout start >>= rest) second = .ok (a, after)) :
    ∃ search looped, (second.AddsEntries start looped ∧
        (start < second.nodes.size → search < looped.nodes.size) ∧
        ∀ nfa : Nfa, nfa.start = start → nfa.Extends looped 0 →
          nfa.Searches p.flags.sticky search) ∧
      rest search looped = .ok (a, after) := by
  cases hs : p.flags.sticky with
  | true =>
    simp only [hs, if_true, pure_bind] at h
    exact ⟨start, second, ⟨.refl _ _, id, fun nfa hstart _ => hstart ▸ .sticky⟩, h⟩
  | false =>
    simp only [hs, Bool.false_eq_true, if_false] at h
    obtain ⟨search, looped, hloop, h⟩ := Build.bind_eq_ok.mp h
    obtain ⟨hadds, hlt, hsearches⟩ := addSearchLoop_spec hloop
    exact ⟨search, looped, ⟨hadds, fun _ => hlt, hsearches⟩, h⟩

/-- The accepting state and those of the pattern come first, then the search loop and the
entries. -/
theorem run_eq_ok (hd : plan.direction = .forward) {nfa : Nfa} {after : Draft}
    (h : plan.run p {} = .ok (nfa, after)) :
    ∃ accept first start second search looped anchored unanchored,
      plan.add (p.layout.first + p.root.size) .accept {} = .ok (accept, first) ∧
      p.root.compile plan p.layout.first accept first = .ok (start, second) ∧
      (second.AddsEntries start looped ∧
        (start < second.nodes.size → search < looped.nodes.size) ∧
        ∀ nfa : Nfa, nfa.start = start → nfa.Extends looped 0 →
          nfa.Searches p.flags.sticky search) ∧
      plan.addEntries p.layout [start] [search] start search 1 p.context looped =
        .ok ((anchored, unanchored), after) ∧
      nfa = ⟨after.nodes, start, anchored, unanchored, after.lookBehinds, after.lookAheads,
        after.counters, p.groupCount, .forward⟩ := by
  obtain ⟨accept, first, hadd, h⟩ := Build.bind_eq_ok.mp h
  obtain ⟨start, second, hroot, h⟩ := Build.bind_eq_ok.mp h
  simp only [hd] at h
  obtain ⟨search, looped, hloop, h⟩ := searchLoop_eq_ok h
  obtain ⟨⟨anchored, unanchored⟩, third, hentries, h⟩ := Build.bind_eq_ok.mp h
  simp only [Build.get_bind] at h
  obtain ⟨rfl, rfl⟩ := Build.pure_eq_ok.mp h
  exact ⟨accept, first, start, second, search, looped, anchored, unanchored, hadd, hroot, hloop,
    hentries, rfl⟩

theorem run_forward (hd : plan.direction = .forward)
    (hmulti : plan.multiline = p.flags.multiline) (hwf : p.WellFormed)
    (href : p.hasBackReference = false) {nfa : Nfa} {after : Draft}
    (h : plan.run p {} = .ok (nfa, after)) : p.Compiled nfa := by
  obtain ⟨accept, first, start, second, search, looped, anchored, unanchored, hadd, hroot,
    ⟨hloop, hsearchLt, hsearches⟩, hentries, rfl⟩ := run_eq_ok hd h
  obtain ⟨hadds, hlead⟩ := addEntries_spec hentries
  have hemitted : ∀ text, Emitted p.context plan.direction text first second [start] accept
      (p.root.outcomes p.flags text plan.direction) p.root.nullable := by
    intro text
    have hcaptures : plan.captures = true := by simp [captures, hd]
    refine p.root.compile_emits hmulti hwf href (.inl hcaptures) _ accept _ _ _ hroot ?_
    obtain ⟨-, rfl, hsize, -⟩ := Build.grows_of_add hadd
    omega
  have hsound : after.Sound p.context plan.direction := by
    have hempty : ({} : Draft).Sound p.context plan.direction :=
      ⟨by simp [Draft.lookBehinds], by simp [Draft.lookAheads], by simp⟩
    exact (hloop.trans hadds).sound ((hemitted #[]).sound (hempty.add hadd trivial))
  generalize hnfa : (⟨after.nodes, start, anchored, unanchored, after.lookBehinds,
    after.lookAheads, after.counters, p.groupCount, .forward⟩ : Nfa) = nfa
  have hstart : nfa.start = start := by rw [← hnfa]
  have hext : nfa.Extends after 0 := by
    rw [← hnfa]
    exact ⟨fun s _ _ => rfl, List.prefix_refl _, List.prefix_refl _⟩
  obtain ⟨hanchored, hunanchored⟩ := hlead nfa 0 hext
  have hrealizes : nfa.Realizes fun text => p.root.outcomes p.flags text plan.direction :=
    realizes_of_emits hadd hemitted (hloop.trans hadds) hstart (by rw [← hnfa]) (by rw [← hnfa])
      (by rw [← hnfa]) (by rw [← hnfa]) (by rw [← hnfa, hd])
  rw [hd] at hrealizes
  have hstartLt : start < second.nodes.size := by
    refine (hemitted #[]).entry_lt ?_
    obtain ⟨-, rfl, hsize, -⟩ := Build.grows_of_add hadd
    omega
  have hgrows := hloop.grows.size_le
  refine ⟨hrealizes, by rw [← hnfa], by rw [← hnfa], by rw [← hnfa]; exact hsound.lookBehinds,
    by rw [← hnfa]; exact hsound.lookAheads, ?_, ?_, search, ?_, ?_⟩
  · have hdirection : nfa.direction = plan.direction := by rw [← hnfa, hd]
    rw [hdirection]
    exact hsound.guardIn_state (by rw [← hnfa]) (by rw [← hnfa])
  · have hlead := hanchored (.single nfa start) .here (by simp; omega)
    rw [Nat.zero_add] at hlead
    rw [hstart, ← hnfa]
    rwa [← hnfa] at hlead
  · exact hsearches nfa hstart (hext.of_grows hadds.grows)
  · have hlead := hunanchored (.single nfa search) .here (by simpa using hsearchLt hstartLt)
    rw [Nat.zero_add] at hlead
    rw [← hnfa]
    rwa [← hnfa] at hlead

end BuildPlan

theorem Nfa.run_of_build {p : NumberedPattern} {config : Config} {d : Direction} {nfa : Nfa}
    (h : Nfa.build p config d = .ok nfa) :
    p.hasBackReference = false ∧
      ∃ after, BuildPlan.run ⟨config, d, p.flags.multiline⟩ p.toPattern {} = .ok (nfa, after) := by
  unfold Nfa.build at h
  split at h
  · simp at h
  split at h
  · simp at h
  rename_i href
  split at h
  · simp at h
  split at h
  · simp at h
  refine ⟨by simpa using href, ?_⟩
  simp only [StateT.run', Functor.map, Except.map] at h
  split at h
  · simp at h
  · rename_i r hr
    obtain rfl := Except.ok.inj h
    exact ⟨r.2, hr⟩

/-- A pattern that is numbered once and has an automaton to the right has this one. -/
theorem Nfa.compiled_of_build {p : NumberedPattern} {config : Config} {nfa : Nfa}
    (hwf : p.WellFormed) (h : Nfa.build p config .forward = .ok nfa) :
    p.Compiled nfa := by
  obtain ⟨href, after, hrun⟩ := Nfa.run_of_build h
  exact BuildPlan.run_forward rfl rfl hwf href hrun

end UnitRegex
