import UnitRegex.Proofs.Automaton.Installed

/-!
What a construction lays down. The states that it adds belong to nodes of the pattern and refer to
slots, bodies and counters that exist, the counted loops among them are complete, and where its part
of the pattern can match empty a walk without a unit leads through it.
-/

namespace UnitRegex

/-- The slots, bodies and counters that a state refers to exist. -/
def NfaState.IndicesIn (groups behinds aheads counters : Nat) : NfaState → Prop
  | .save slot _ => slot < 2 * groups
  | .unset _ hi _ => hi ≤ groups
  | .assert (.behind body _) _ => body < behinds
  | .assert (.ahead body _) _ => body < aheads
  | .reset counter _ | .increment counter _ _ | .loop counter _ _ _ _ _ => counter < counters
  | .unit _ _ | .split _ | .assert .caret _ | .assert .dollar _ | .accept => True

theorem NfaState.IndicesIn.mono {groups a b c a' b' c' : Nat} {state : NfaState}
    (h : state.IndicesIn groups a b c) (ha : a ≤ a') (hb : b ≤ b') (hc : c ≤ c') :
    state.IndicesIn groups a' b' c' := by
  cases state with
  | assert guard next => cases guard <;> simp only [IndicesIn] at h ⊢ <;> omega
  | _ => simp only [IndicesIn] at h ⊢ <;> omega

theorem NfaState.IndicesIn.mapEpsilon {groups a b c : Nat} {state : NfaState}
    (h : state.IndicesIn groups a b c) (rename : Nat → Nat) :
    (state.mapEpsilon rename).IndicesIn groups a b c := by
  cases state with
  | assert guard next => cases guard <;> exact h
  | _ => exact h

/-- What a construction may use: ids for its states, groups, and look-behinds that see at most
`context` units. -/
structure Scope where
  ids : Nat → Prop
  groups : Nat
  context : Nat

/-- A state of a draft that does not accept belongs to a known node and refers to what exists. -/
structure Scope.Admits (scope : Scope) (draft : Draft) (n : LabeledState) : Prop where
  ne_accept : n.state ≠ .accept
  successors : ∀ t ∈ n.state.successors, t < draft.nodes.size
  indices : n.state.IndicesIn scope.groups draft.lookBehinds.length draft.lookAheads.length
    draft.counters
  origin : scope.ids n.origin

theorem Scope.Admits.mono {scope : Scope} {before after : Draft} {n : LabeledState}
    (h : scope.Admits before n) (hgrows : before.Grows after) : scope.Admits after n :=
  ⟨h.ne_accept, fun t ht => Nat.lt_of_lt_of_le (h.successors t ht) hgrows.size_le,
    h.indices.mono hgrows.lookBehinds.length_le hgrows.lookAheads.length_le hgrows.counters,
    h.origin⟩

namespace Nfa

/-- The head of a counted loop stands behind its exit and in front of the state that counts for it.
That one is followed by the iteration and by the state that resets the counter. The iteration is
entered at `body`, and without a unit it is only left towards the state that counts. -/
structure CountsFrom (nfa : Nfa) (head counter limit body exit : Nat) : Prop where
  exit_lt : exit < head
  increment : nfa.state (head + 1) = .increment counter limit head
  iteration : ∃ last, head + 2 ≤ body ∧ body < last ∧ nfa.state last = .reset counter head ∧
    ∀ s, head + 2 ≤ s → s < last → ∀ counts, ∀ b ∈ nfa.epsilon (s, counts),
      b.1 = head + 1 ∨ (head + 2 ≤ b.1 ∧ b.1 < last)

/-- If a state is the head of a counted loop, the loop is complete. -/
def CompleteAt (nfa : Nfa) (s : Nat) : Prop :=
  ∀ counter low high greedy body exit, nfa.state s = .loop counter low high greedy body exit →
    nfa.CountsFrom s counter (high.getD low) body exit

end Nfa

/-- What a construction in front of `next` has laid down. -/
structure Laid (scope : Scope) (before after : Draft) (entries : List Nat) (next : Nat)
    (nullable : Bool) : Prop where
  grows : before.Grows after
  entries_in : ∀ e ∈ entries, e = next ∨ (before.nodes.size ≤ e ∧ e < after.nodes.size)
  states : ∀ s n, before.nodes.size ≤ s → after.nodes[s]? = some n → scope.Admits after n
  behinds : ∀ body ∈ after.lookBehinds, body ∈ before.lookBehinds ∨ body.length ≤ scope.context
  loops : ∀ nfa : Nfa, nfa.Extends after before.nodes.size →
    ∀ s, before.nodes.size ≤ s → s < after.nodes.size → nfa.CompleteAt s
  passes : nullable = true → ∀ nfa : Nfa, nfa.Extends after before.nodes.size →
    ∀ counts, ∃ e ∈ entries, ∃ counts', nfa.EpsilonWalk (e, counts) (next, counts')

/-- A construction lays something down whenever it succeeds. -/
def Lays (scope : Scope) (m : Build Nat) (next : Nat) (nullable : Bool) : Prop :=
  ∀ before e after, m before = .ok (e, after) → next < before.nodes.size →
    Laid scope before after [e] next nullable

/-- The same for a construction with several entries. -/
def LaysAll (scope : Scope) (m : Build (List Nat)) (next : Nat) (nullable : Bool) : Prop :=
  ∀ before entries after, m before = .ok (entries, after) → next < before.nodes.size →
    Laid scope before after entries next nullable

variable {scope : Scope} {plan : BuildPlan} {origin next : Nat} {n m : Bool}

namespace Laid

variable {before middle after : Draft} {entries others : List Nat} {s : Nat}

theorem entry_lt (h : Laid scope before after [s] next n) (hnext : next < before.nodes.size) :
    s < after.nodes.size := by
  have hle := h.grows.size_le
  rcases h.entries_in s (by simp) with rfl | hs <;> omega

theorem skip (before : Draft) (next : Nat) : Laid scope before before [next] next true where
  grows := .refl before
  entries_in := by simp
  states s n hs hn := by
    obtain ⟨hlt, -⟩ := Array.getElem?_eq_some_iff.mp hn
    omega
  behinds body hbody := .inl hbody
  loops nfa _ s hlo hhi := by omega
  passes _ nfa _ counts := ⟨next, by simp, counts, .refl⟩

/-- The states of two constructions, one after the other. -/
theorem states_trans (hlow : ∀ s n, before.nodes.size ≤ s → middle.nodes[s]? = some n →
      scope.Admits middle n) (hgrows : middle.Grows after)
    (hhigh : ∀ s n, middle.nodes.size ≤ s → after.nodes[s]? = some n → scope.Admits after n)
    (s : Nat) (n : LabeledState) (hs : before.nodes.size ≤ s) (hn : after.nodes[s]? = some n) :
    scope.Admits after n := by
  by_cases hlt : s < middle.nodes.size
  · exact (hlow s n hs ((hgrows.nodes s hlt).symm.trans hn)).mono hgrows
  · exact hhigh s n (Nat.le_of_not_lt hlt) hn

/-- A state that is added to known ones. -/
theorem states_add {lo e : Nat} {state : NfaState}
    (h : ∀ s n, lo ≤ s → before.nodes[s]? = some n → scope.Admits before n)
    (hadd : plan.add origin state before = .ok (e, after))
    (hstate : scope.Admits before ⟨state, origin⟩) (s : Nat) (n : LabeledState) (hs : lo ≤ s)
    (hn : after.nodes[s]? = some n) : scope.Admits after n := by
  obtain ⟨-, rfl⟩ := Build.add_eq_ok hadd
  rw [Array.getElem?_push] at hn
  split at hn
  · obtain rfl := Option.some.inj hn
    exact hstate.mono (.push before _)
  · exact (h s n hs hn).mono (.push before _)

theorem seq (hg : Laid scope before middle [s] next m) (hf : Laid scope middle after entries s n) :
    Laid scope before after entries next (n && m) where
  grows := hg.grows.trans hf.grows
  entries_in e he := by
    have hle := hg.grows.size_le
    have hle' := hf.grows.size_le
    have hs := hg.entries_in s (by simp)
    rcases hf.entries_in e he with rfl | h <;> omega
  states := states_trans hg.states hf.grows hf.states
  behinds body hbody := by
    rcases hf.behinds body hbody with hbody | hlength
    · exact hg.behinds body hbody
    · exact .inr hlength
  loops nfa hext t hlo hhi := by
    by_cases hlt : t < middle.nodes.size
    · exact hg.loops nfa (hext.of_grows hf.grows) t hlo hlt
    · exact hf.loops nfa (hext.mono hg.grows.size_le) t (Nat.le_of_not_lt hlt) hhi
  passes hnull nfa hext counts := by
    obtain ⟨hn, hm⟩ := Bool.and_eq_true_iff.mp hnull
    obtain ⟨e, he, counts₁, hfront⟩ := hf.passes hn nfa (hext.mono hg.grows.size_le) counts
    obtain ⟨s', hs', counts₂, hback⟩ := hg.passes hm nfa (hext.of_grows hf.grows) counts₁
    obtain rfl := List.mem_singleton.mp hs'
    exact ⟨e, he, counts₂, hfront.trans hback⟩

theorem alt (hf : Laid scope before middle entries next n)
    (hg : Laid scope middle after others next m) :
    Laid scope before after (entries ++ others) next (n || m) where
  grows := hf.grows.trans hg.grows
  entries_in e he := by
    have hle := hf.grows.size_le
    have hle' := hg.grows.size_le
    rcases List.mem_append.mp he with he | he
    · have := hf.entries_in e he
      omega
    · have := hg.entries_in e he
      omega
  states := states_trans hf.states hg.grows hg.states
  behinds body hbody := by
    rcases hg.behinds body hbody with hbody | hlength
    · exact hf.behinds body hbody
    · exact .inr hlength
  loops nfa hext t hlo hhi := by
    by_cases hlt : t < middle.nodes.size
    · exact hf.loops nfa (hext.of_grows hg.grows) t hlo hlt
    · exact hg.loops nfa (hext.mono hf.grows.size_le) t (Nat.le_of_not_lt hlt) hhi
  passes hnull nfa hext counts := by
    rcases Bool.or_eq_true_iff.mp hnull with hn | hm
    · obtain ⟨e, he, hwalk⟩ := hf.passes hn nfa (hext.of_grows hg.grows) counts
      exact ⟨e, List.mem_append_left _ he, hwalk⟩
    · obtain ⟨e, he, hwalk⟩ := hg.passes hm nfa (hext.mono hf.grows.size_le) counts
      exact ⟨e, List.mem_append_right _ he, hwalk⟩

theorem congr {n' : Bool} (h : Laid scope before after entries next n) (hn : n = n') :
    Laid scope before after entries next n' := hn ▸ h

/-- One state that is added to a draft, which may have noted its body just before. -/
theorem of_add {noted : Draft} {state : NfaState} {e : Nat} (hgrows : before.Grows noted)
    (hnodes : noted.nodes = before.nodes)
    (hbehinds : ∀ body ∈ noted.lookBehinds,
      body ∈ before.lookBehinds ∨ body.length ≤ scope.context)
    (hadd : plan.add origin state noted = .ok (e, after)) (horigin : scope.ids origin)
    (haccept : state ≠ .accept) (hsuccessors : ∀ t ∈ state.successors, t < before.nodes.size)
    (hindices : state.IndicesIn scope.groups noted.lookBehinds.length noted.lookAheads.length
      noted.counters)
    (hloop : ∀ counter low high greedy body exit,
      state ≠ .loop counter low high greedy body exit)
    (hpasses : n = true → ∀ (nfa : Nfa) (s : Nat), nfa.state s = state → ∀ counts,
      ∃ counts', (next, counts') ∈ nfa.epsilon (s, counts)) :
    Laid scope before after [e] next n := by
  have hnone : ∀ s n, noted.nodes.size ≤ s → noted.nodes[s]? = some n → scope.Admits noted n := by
    intro s n hs hn
    rw [Array.getElem?_eq_none hs] at hn
    cases hn
  have hstates := states_add hnone hadd ⟨haccept, hnodes ▸ hsuccessors, hindices, horigin⟩
  obtain ⟨rfl, rfl⟩ := Build.add_eq_ok hadd
  rw [hnodes] at hstates ⊢
  have hstate : ∀ nfa : Nfa, nfa.Extends
      { noted with nodes := before.nodes.push ⟨state, origin⟩ } before.nodes.size →
        nfa.state before.nodes.size = state := fun nfa hext =>
    hext.state (Nat.le_refl _) (n := ⟨state, origin⟩) Array.getElem?_push_size
  refine ⟨hgrows.trans (hnodes ▸ .push noted _), by simp, hstates, hbehinds,
    fun nfa hext s hlo hhi => ?_, fun hnull nfa hext counts => ?_⟩
  · obtain rfl : s = before.nodes.size := by
      simp only [Array.size_push] at hhi
      omega
    intro counter low high greedy body exit hs
    exact (hloop _ _ _ _ _ _ ((hstate nfa hext).symm.trans hs)).elim
  · obtain ⟨counts', hstep⟩ := hpasses hnull nfa _ (hstate nfa hext) counts
    exact ⟨before.nodes.size, by simp, counts', .single hstep⟩

/-- Several entries become one by a split behind them. -/
theorem split {e : Nat} (h : Laid scope before middle entries next n)
    (hadd : plan.add origin (.split entries) middle = .ok (e, after)) (horigin : scope.ids origin)
    (hnext : next < before.nodes.size) : Laid scope before after [e] next n := by
  have hle := h.grows.size_le
  have hstates := states_add h.states hadd
    ⟨by simp, fun t ht => by have := h.entries_in t ht; omega, trivial, horigin⟩
  obtain ⟨rfl, rfl⟩ := Build.add_eq_ok hadd
  have hstate : ∀ nfa : Nfa, nfa.Extends
      { middle with nodes := middle.nodes.push ⟨.split entries, origin⟩ } before.nodes.size →
        nfa.state middle.nodes.size = .split entries := fun nfa hext =>
    hext.state hle (n := ⟨.split entries, origin⟩) Array.getElem?_push_size
  refine ⟨h.grows.trans (.push middle _), by simp; omega, hstates, h.behinds,
    fun nfa hext s hlo hhi => ?_, fun hnull nfa hext counts => ?_⟩
  · by_cases hlt : s < middle.nodes.size
    · exact h.loops nfa (hext.of_grows (.push middle _)) s hlo hlt
    · obtain rfl : s = middle.nodes.size := by
        simp only [Array.size_push] at hhi
        omega
      intro counter low high greedy body exit hs
      rw [hstate nfa hext] at hs
      cases hs
  · obtain ⟨e, he, counts', hwalk⟩ := h.passes hnull nfa (hext.of_grows (.push middle _)) counts
    refine ⟨middle.nodes.size, by simp, counts', .head ?_ hwalk⟩
    simp only [Nfa.epsilon, hstate nfa hext]
    exact List.mem_map_of_mem he

end Laid

namespace Lays

theorem congr {build : Build Nat} {n' : Bool} (h : Lays scope build next n) (hn : n = n') :
    Lays scope build next n' := hn ▸ h

theorem skip : Lays scope (pure next) next true := by
  intro before e after h _
  obtain ⟨rfl, rfl⟩ := Build.pure_eq_ok.mp h
  exact .skip _ _

theorem refuse {c : Construct} : Lays scope (BuildPlan.refuse c) next n := by
  intro before e after h
  cases h

/-- A state that refers to nothing that may be missing. -/
theorem add {state : NfaState} (horigin : scope.ids origin) (haccept : state ≠ .accept)
    (hsuccessors : ∀ t ∈ state.successors, t = next)
    (hindices : state.IndicesIn scope.groups 0 0 0)
    (hpasses : n = true → ∀ (nfa : Nfa) (s : Nat), nfa.state s = state → ∀ counts,
      ∃ counts', (next, counts') ∈ nfa.epsilon (s, counts)) :
    Lays scope (plan.add origin state) next n := by
  intro before e after hadd hnext
  refine Laid.of_add (.refl before) rfl (fun body hbody => .inl hbody) hadd horigin haccept
    (fun t ht => hsuccessors t ht ▸ hnext)
    (hindices.mono (Nat.zero_le _) (Nat.zero_le _) (Nat.zero_le _)) ?_ hpasses
  rintro counter low high greedy body exit rfl
  exact absurd hindices (Nat.not_lt_zero counter)

/-- The part behind is built first. -/
theorem bind {rest : Build Nat} {front : Nat → Build Nat} (hg : Lays scope rest next m)
    (hf : ∀ e, Lays scope (front e) e n) : Lays scope (rest >>= front) next (n && m) := by
  intro before e after h hnext
  obtain ⟨s, middle, hrest, hfront⟩ := Build.bind_eq_ok.mp h
  have hg' := hg _ _ _ hrest hnext
  exact hg'.seq (hf s _ _ _ hfront (hg'.entry_lt hnext))

/-- A number of copies, each in front of the one before. -/
theorem chain {compile : Nat → Build Nat} (hf : ∀ e, Lays scope (compile e) e n) (count : Nat)
    {before middle after : Draft} {s e : Nat} (hg : Laid scope before middle [s] next m)
    (hnext : next < before.nodes.size)
    (h : BuildPlan.chain compile count s middle = .ok (e, after)) :
    Laid scope before after [e] next ((count == 0 || n) && m) := by
  induction count generalizing s middle m with
  | zero =>
    obtain ⟨rfl, rfl⟩ := Build.pure_eq_ok.mp h
    exact hg.congr (by simp)
  | succ count ih =>
    obtain ⟨s', middle', hfront, hrest⟩ := Build.bind_eq_ok.mp h
    have hstep := hg.seq (hf s _ _ _ hfront (hg.entry_lt hnext))
    refine (ih hstep hrest).congr ?_
    cases n <;> simp

theorem join {branches : Build (List Nat)} (h : LaysAll scope branches next n)
    (horigin : scope.ids origin) : Lays scope (branches >>= plan.join origin) next n := by
  intro before e after hrun hnext
  obtain ⟨entries, middle, hbranches, hjoin⟩ := Build.bind_eq_ok.mp hrun
  have hf := h _ _ _ hbranches hnext
  by_cases hone : ∃ entry, entries = [entry]
  · obtain ⟨entry, rfl⟩ := hone
    obtain ⟨rfl, rfl⟩ := Build.pure_eq_ok.mp hjoin
    exact hf
  · rw [plan.join_of_ne origin fun entry h => hone ⟨entry, h⟩] at hjoin
    exact hf.split hjoin horigin hnext

theorem save {slot : Nat} (hslot : slot < 2 * scope.groups) (horigin : scope.ids origin) :
    Lays scope (plan.add origin (.save slot next)) next true :=
  add horigin (by simp) (by simp [NfaState.successors]) hslot fun _ nfa s hs counts =>
    ⟨counts, by simp [Nfa.epsilon, hs]⟩

theorem groupPass {capture : Option Nat} {branches : Nat → Build (List Nat)}
    (hf : ∀ next, LaysAll scope (branches next) next n) (horigin : scope.ids origin)
    (hcapture : ∀ g, capture = some g → g < scope.groups) :
    Lays scope (plan.groupPass origin capture branches next) next n := by
  by_cases hnone : plan.captures = false ∨ capture = none
  · rw [BuildPlan.groupPass_of_none hnone]
    exact join (hf next) horigin
  · obtain ⟨hcaptures, hsome⟩ := not_or.mp hnone
    obtain ⟨g, rfl⟩ := Option.ne_none_iff_exists'.mp hsome
    have hg := hcapture g rfl
    rw [BuildPlan.groupPass_of_some (by simpa using hcaptures)]
    refine (bind (save (by omega) horigin) fun exit => bind (join (hf exit) horigin)
      fun entry => save (by omega) horigin).congr ?_
    cases n <;> rfl

theorem iteration {clear : Option (Nat × Nat)} {body : Nat → Build Nat}
    (hf : ∀ next, Lays scope (body next) next n) (horigin : scope.ids origin)
    (hclear : ∀ span, clear = some span → span.2 ≤ scope.groups) :
    Lays scope (plan.iteration origin clear body next) next n := by
  cases clear with
  | none =>
    simp only [BuildPlan.iteration, bind_pure]
    exact hf next
  | some span =>
    refine (bind (hf next) fun entry => ?_).congr (Bool.true_and n)
    exact add horigin (by simp) (by simp [NfaState.successors]) (hclear span rfl)
      fun _ nfa s hs counts => ⟨counts, by simp [Nfa.epsilon, hs]⟩

end Lays

end UnitRegex
