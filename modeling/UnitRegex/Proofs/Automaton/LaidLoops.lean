import UnitRegex.Proofs.Automaton.Laid

/-!
What the construction of loops lays down. Copies of complete loops are complete, and a loop that
counts is complete once its head knows the entry of its body.
-/

namespace UnitRegex

variable {scope : Scope} {plan : BuildPlan} {origin next : Nat} {n : Bool}

/-! ### Complete loops -/

/-- The copy of a complete loop is complete. -/
theorem Nfa.CountsFrom.copy {before after : Draft} {d : Direction} {nfa : Nfa} {rename : Nat → Nat}
    {lo head counter limit body exit : Nat}
    (h : (before.toNfa d).CountsFrom head counter limit body exit) (hlo : lo ≤ head)
    (hcopied : before.Copied after lo origin rename) (hext : nfa.Extends after lo) :
    nfa.CountsFrom (rename head) counter limit (rename body) (rename exit) := by
  obtain ⟨hexit, hincrement, last, hbody, hlast, hreset, hclosed⟩ := h
  have hsize : last < before.nodes.size := by
    refine Nat.lt_of_not_le fun hle => ?_
    rw [state_of_size_le hle] at hreset
    cases hreset
  have hstate : ∀ s, lo ≤ s → s < before.nodes.size →
      nfa.state (rename s) = ((before.toNfa d).state s).mapEpsilon rename :=
    fun s => hcopied.state (before.extends_toNfa d lo) hext
  have hinside := hcopied.inside
  have hhead := hinside head hlo (by omega)
  have hnext : rename (head + 1) = rename head + 1 := by
    rw [hinside _ (by omega) (by omega)]
    omega
  have hbody' := hinside body (by omega) (by omega)
  have hlast' := hinside last (by omega) hsize
  refine ⟨?_, ?_, rename last, by omega, by omega, ?_, fun s hs hs' counts b hb => ?_⟩
  · by_cases hin : lo ≤ exit
    · have := hinside exit hin (by omega)
      omega
    · have := hcopied.outside exit (by omega)
      omega
  · rw [← hnext, hstate _ (by omega) (by omega), hincrement]
    rfl
  · rw [hstate last (by omega) hsize, hreset]
    rfl
  · -- A state of the copied iteration; `t` is the state that it copies.
    obtain ⟨t, ht, ht', rfl⟩ : ∃ t, head + 2 ≤ t ∧ t < last ∧ rename t = s :=
      exists_rename_eq hinside (by omega) (by omega) (by omega) (by omega)
    rw [epsilon_copy (hstate t (by omega) (by omega))] at hb
    obtain ⟨c, hc, rfl⟩ := List.mem_map.mp hb
    rcases hclosed t ht ht' counts c hc with hback | ⟨hin, hin'⟩
    · exact .inl (by rw [hback, hnext])
    · have := hinside c.1 (by omega) (by omega)
      exact .inr ⟨by dsimp only; omega, by dsimp only; omega⟩

/-- A fragment that cannot match empty, with a state that counts in front of it and one that resets
the counter behind it. -/
theorem Nfa.CountsFrom.of_emitted {context : Nat} {d : Direction} {text : Text} {f : Behavior}
    {before after : Draft} {head counter limit entry exit : Nat}
    (h : Emitted context d text before after [entry] (head + 1) f false)
    (hsize : before.nodes.size = head + 2) {nfa : Nfa}
    (hext : nfa.Extends after before.nodes.size) (hexit : exit < head)
    (hincrement : nfa.state (head + 1) = .increment counter limit head)
    (hreset : nfa.state after.nodes.size = .reset counter head) :
    nfa.CountsFrom head counter limit entry exit := by
  -- The direction does not change where a state leads.
  let nfa' : Nfa := { nfa with direction := d }
  have hext' : nfa'.Extends after before.nodes.size :=
    ⟨hext.nodes, hext.lookBehinds, hext.lookAheads⟩
  have hne : entry ≠ head + 1 := by
    rintro rfl
    exact h.not_epsilonWalk (by omega) rfl hext' [] [] .refl
  have hentry := h.entries_in entry (by simp)
  refine ⟨hexit, hincrement, after.nodes.size, by omega, by omega, hreset,
    fun s hs hs' counts b hb => ?_⟩
  have hclosed := (h.fragment nfa' rfl hext').closed s (by omega) hs' b.1
    (Nfa.state_mem_successors hb)
  omega

namespace Laid

variable {before middle after : Draft}

/-! ### Copies -/

/-- A copied state leads to the copies of where the state leads. -/
theorem admits_copy {lo : Nat} {rename : Nat → Nat} {n : LabeledState} (h : scope.Admits middle n)
    (hcopied : middle.Copied after lo origin rename) :
    scope.Admits after ⟨n.state.mapEpsilon rename, n.origin⟩ := by
  obtain ⟨hne, hsuccessors, hindices, horigin⟩ := h.mono hcopied.grows
  refine ⟨?_, fun t ht => ?_, hindices.mapEpsilon rename, horigin⟩
  · cases hs : n.state <;> simp_all [NfaState.mapEpsilon]
  · rcases NfaState.mem_successors_mapEpsilon ht with ⟨set, hunit⟩ | ⟨u, hu, rfl⟩
    · exact hsuccessors t (by simp [hunit, NfaState.successors])
    · exact hcopied.rename_lt (h.successors u hu)

/-- A part that has been copied, together with the end of the copy. -/
theorem copy {entry : Nat} {rename : Nat → Nat} (h : Laid scope before middle [entry] next n)
    (hcopied : middle.Copied after before.nodes.size origin rename)
    (hexit : rename next = middle.nodes.size) (horigin : scope.ids origin) :
    Laid scope before after [rename entry] next false := by
  have hle := h.grows.size_le
  have hentry := h.entries_in entry (by simp)
  have hsize := hcopied.size
  refine ⟨h.grows.trans hcopied.grows, fun e he => ?_,
    states_trans h.states hcopied.grows fun s n hs hn => ?_, ?_,
    fun nfa hext s hlo hhi => ?_, by simp⟩
  · obtain rfl := List.mem_singleton.mp he
    rcases hentry with rfl | hentry
    · omega
    · rw [hcopied.inside entry hentry.1 hentry.2]
      omega
  · obtain ⟨hs', -⟩ := Array.getElem?_eq_some_iff.mp hn
    rcases hcopied.eq_or_exists hs hs' with rfl | ⟨t, ht, ht', rfl⟩
    · obtain rfl := Option.some.inj (hn.symm.trans hcopied.dead)
      exact ⟨by simp, by simp [NfaState.successors], trivial, horigin⟩
    · have hnode := Array.getElem?_eq_getElem ht'
      obtain rfl := Option.some.inj (hn.symm.trans (hcopied.copy t _ ht hnode))
      exact admits_copy (h.states t _ ht hnode) hcopied
  · rw [hcopied.lookBehinds]
    exact h.behinds
  · by_cases hlt : s < middle.nodes.size
    · exact h.loops nfa (hext.of_grows hcopied.grows) s hlo hlt
    intro counter low high greedy body exit hloop
    rcases hcopied.eq_or_exists (Nat.le_of_not_lt hlt) hhi with rfl | ⟨t, ht, ht', rfl⟩
    · rw [hext.state hle hcopied.dead] at hloop
      cases hloop
    -- The state copies a head of the draft, whose loop is complete already.
    have hin : (middle.toNfa .forward).Extends middle before.nodes.size := middle.extends_toNfa _ _
    rw [hcopied.state hin hext ht ht'] at hloop
    cases horiginal : (middle.toNfa .forward).state t with
    | loop counter' low' high' greedy' body' exit' =>
      rw [horiginal] at hloop
      injection hloop with hcounter hlow hhigh _ hbody hexit
      rw [← hcounter, ← hlow, ← hhigh, ← hbody, ← hexit]
      exact (h.loops _ hin t ht ht' _ _ _ _ _ _ horiginal).copy ht hcopied hext
    | _ => simp [horiginal, NfaState.mapEpsilon] at hloop

/-! ### Optional iterations -/

/-- A split in front of an iteration and of what follows it. -/
theorem option {inner : Draft} {greedy : Bool} {t entry e : Nat}
    (hg : Laid scope before middle [t] next n) (hf : Laid scope middle inner [entry] t false)
    (hadd : plan.add origin (.split (BuildPlan.ordered greedy entry next)) inner = .ok (e, after))
    (horigin : scope.ids origin) (hnext : next < before.nodes.size) :
    Laid scope before after [e] next true := by
  have hiterate := hg.seq hf
  cases greedy with
  | true => exact ((hiterate.alt (skip inner next)).split hadd horigin hnext).congr (by simp)
  | false => exact (((skip before next).alt hiterate).split hadd horigin hnext).congr (by simp)

/-- A nest of options, each in front of the one before. -/
theorem options {greedy : Bool} {iteration : Nat → Build Nat}
    (hf : ∀ next, Lays scope (iteration next) next false) (horigin : scope.ids origin) (count : Nat)
    {t e : Nat} (hg : Laid scope before middle [t] next true) (hnext : next < before.nodes.size)
    (h : BuildPlan.chain (fun t => do
      plan.add origin (.split (BuildPlan.ordered greedy (← iteration t) next))) count t middle =
        .ok (e, after)) :
    Laid scope before after [e] next true := by
  induction count generalizing t middle with
  | zero =>
    obtain ⟨rfl, rfl⟩ := Build.pure_eq_ok.mp h
    exact hg
  | succ count ih =>
    obtain ⟨t', outer, hlayer, hrest⟩ := Build.bind_eq_ok.mp h
    obtain ⟨entry, inner, hiteration, hadd⟩ := Build.bind_eq_ok.mp hlayer
    exact ih (hg.option (hf t _ _ _ hiteration (hg.entry_lt hnext)) hadd horigin hnext) hrest

/-! ### Heads of loops -/

/-- A state that takes the place of another one keeps its origin. -/
theorem states_put {draft patched : Draft} {lo head : Nat} {state : NfaState} {u : Unit}
    (h : ∀ s n, lo ≤ s → draft.nodes[s]? = some n → scope.Admits draft n)
    (hput : BuildPlan.put head state draft = .ok (u, patched)) (haccept : state ≠ .accept)
    (hsuccessors : ∀ t ∈ state.successors, t < draft.nodes.size)
    (hindices : state.IndicesIn scope.groups draft.lookBehinds.length draft.lookAheads.length
      draft.counters) (s : Nat) (n : LabeledState) (hs : lo ≤ s)
    (hn : patched.nodes[s]? = some n) : scope.Admits patched n := by
  obtain rfl := Build.put_eq_ok hput
  rw [Array.getElem?_modify] at hn
  split at hn
  · obtain ⟨old, hold, rfl⟩ := Option.map_eq_some_iff.mp hn
    exact ⟨haccept, by simpa using hsuccessors, hindices, (h s old hs hold).origin⟩
  · obtain ⟨hne, hin, hrefers, horigin⟩ := h s n hs hn
    exact ⟨hne, by simpa using hin, hrefers, horigin⟩

/-- A loop without a bound. Its head is completed when the entry of its body is known. -/
theorem star {first : Draft} {greedy : Bool} {head entry : Nat} {u : Unit}
    (hadd : plan.add origin (.split []) before = .ok (head, first))
    (hf : Laid scope first middle [entry] head false)
    (hput : BuildPlan.put head (.split (BuildPlan.ordered greedy entry next)) middle =
      .ok (u, after)) (horigin : scope.ids origin) (hnext : next < before.nodes.size) :
    Laid scope before after [head] next true := by
  have hplace : Laid scope before first [head] next false :=
    of_add (.refl before) rfl (fun body hbody => .inl hbody) hadd horigin (by simp)
      (by simp [NfaState.successors]) trivial (by simp) (by simp)
  have hall := hplace.seq hf
  have hentry := hf.entry_lt (hplace.entry_lt hnext)
  obtain ⟨-, rfl, hsize, -⟩ := Build.grows_of_add hadd
  have hle := hf.grows.size_le
  have hpatched := Build.put_eq_ok hput
  have hsize' : after.nodes.size = middle.nodes.size := by simp [hpatched]
  have hhead : ∀ nfa : Nfa, nfa.Extends after before.nodes.size →
      nfa.state before.nodes.size = .split (BuildPlan.ordered greedy entry next) :=
    fun nfa hext => (hpatched ▸ hext).state_of_put (Nat.le_refl _) (by omega)
  refine ⟨hpatched ▸ hall.grows.put (Nat.le_refl _), by simp; omega,
    states_put hall.states hput (by simp) ?_ trivial, fun body hbody => ?_,
    fun nfa hext s hlo hhi => ?_, fun _ nfa hext counts => ?_⟩
  · cases greedy <;> simp [NfaState.successors, BuildPlan.ordered] <;> omega
  · rw [hpatched] at hbody
    exact hall.behinds body hbody
  · by_cases hs : s = before.nodes.size
    · intro counter low high greedy' body exit hloop
      rw [hs, hhead nfa hext] at hloop
      cases hloop
    · have hin : nfa.Extends middle first.nodes.size := by
        rw [hpatched] at hext
        rw [hsize]
        exact (hext.mono (Nat.le_succ _)).of_put (Nat.lt_succ_self _)
      exact hf.loops nfa hin s (by omega) (by omega)
  · refine ⟨before.nodes.size, by simp, counts, .single ?_⟩
    simp only [Nfa.epsilon, hhead nfa hext]
    exact List.mem_map_of_mem (by cases greedy <;> simp [BuildPlan.ordered])

/-- A loop that counts is complete if its body is a fragment that reads. -/
theorem counted {second : Draft} {q : Quantifier} {context : Nat} {text : Text} {f : Behavior}
    {entry : Nat} (hf : Laid scope second middle [entry] (before.nodes.size + 1) false)
    (hbody : Emitted context plan.direction text second middle [entry] (before.nodes.size + 1) f
      false)
    (hfront : before.CountedFront second q origin next)
    (hcounted : before.Counted middle after q origin entry next)
    (hnext : next < before.nodes.size) (horigin : scope.ids origin) :
    Laid scope before after [middle.nodes.size] next (q.min == 0) := by
  have hfrontSize := hfront.size
  have hfrontCounters := hfront.counters
  have hle := hf.grows.size_le
  have hmore := hf.grows.counters
  have hsize := hcounted.size
  have hcounters := hcounted.counters
  have hentry := hf.entry_lt (by omega)
  have hstates : ∀ nfa : Nfa, nfa.Extends after before.nodes.size →
      nfa.state before.nodes.size = .loop before.counters q.min q.max q.greedy entry next ∧
      nfa.state middle.nodes.size = .reset before.counters before.nodes.size := fun nfa hext =>
    ⟨hext.state (Nat.le_refl _) hcounted.head, hext.state (by omega) hcounted.reset⟩
  refine ⟨hcounted.grows, by simp; omega, fun s n hs hn => ?_, fun b hb => ?_,
    fun nfa hext s hlo hhi => ?_, fun hmin nfa hext counts => ?_⟩
  · -- Three of the states belong to the loop itself, and the others to its body.
    by_cases hhead : s = before.nodes.size
    · obtain rfl := Option.some.inj ((hhead ▸ hn).symm.trans hcounted.head)
      exact ⟨by simp, by simp [NfaState.successors]; omega,
        show before.counters < after.counters by omega, horigin⟩
    by_cases hincrement : s = before.nodes.size + 1
    · obtain rfl := Option.some.inj ((hincrement ▸ hn).symm.trans hcounted.increment)
      exact ⟨by simp, by simp [NfaState.successors]; omega,
        show before.counters < after.counters by omega, horigin⟩
    by_cases hreset : s = middle.nodes.size
    · obtain rfl := Option.some.inj ((hreset ▸ hn).symm.trans hcounted.reset)
      exact ⟨by simp, by simp [NfaState.successors]; omega,
        show before.counters < after.counters by omega, horigin⟩
    have hlt := (Array.getElem?_eq_some_iff.mp hn).1
    rw [hcounted.inside s (by omega) (by omega)] at hn
    obtain ⟨hne, hsuccessors, hindices, horigin⟩ := hf.states s n (by omega) hn
    refine ⟨hne, fun t ht => ?_, ?_, horigin⟩
    · have := hsuccessors t ht
      omega
    · rwa [hcounted.lookBehinds, hcounted.lookAheads, hcounted.counters]
  · rw [hcounted.lookBehinds] at hb
    simpa only [hfront.lookBehinds] using hf.behinds b hb
  · obtain ⟨hhead, hreset⟩ := hstates nfa hext
    have hincrement := hext.state (Nat.le_succ _) hcounted.increment
    have hin : nfa.Extends middle second.nodes.size := hfrontSize ▸ hcounted.extends hext
    intro counter low high greedy body exit hloop
    by_cases hs : s = before.nodes.size
    · subst hs
      rw [hhead] at hloop
      injection hloop with hcounter hlow hhigh _ hentry hexit
      subst hcounter hlow hhigh hentry hexit
      exact .of_emitted hbody hfrontSize hin hnext hincrement hreset
    · have hne : s ≠ before.nodes.size + 1 ∧ s ≠ middle.nodes.size := by
        constructor
        all_goals
          rintro rfl
          simp [hincrement, hreset] at hloop
      exact hf.loops nfa hin s (by omega) (by omega) _ _ _ _ _ _ hloop
  · obtain ⟨hhead, hreset⟩ := hstates nfa hext
    have hfirst : (before.nodes.size, counts.set before.counters 0) ∈
        nfa.epsilon (middle.nodes.size, counts) := by
      simp [Nfa.epsilon, hreset]
    refine ⟨_, by simp, (counts.set before.counters 0).set before.counters 0,
      .head hfirst (.single ?_)⟩
    simp only [Nfa.epsilon, hhead]
    refine List.mem_map.mpr ⟨(next, 0), Nfa.mem_countChoices.mpr (.inr ⟨?_, rfl⟩), rfl⟩
    simp_all

end Laid

namespace Lays

variable {clear : Option (Nat × Nat)} {body : Nat → Build Nat} {q : Quantifier}

/-- An iteration that has to move, with a copy of its states if it can match empty. -/
theorem movingIteration (hf : ∀ next, Lays scope (plan.iteration origin clear body next) next n)
    (horigin : scope.ids origin) :
    Lays scope (plan.movingIteration origin clear n body next) next false := by
  intro before e after hrun hnext
  rw [BuildPlan.movingIteration, Build.get_bind] at hrun
  obtain ⟨entry, middle, hbody, hrest⟩ := Build.bind_eq_ok.mp hrun
  have hf' := hf next _ _ _ hbody hnext
  cases n with
  | false =>
    obtain ⟨rfl, rfl⟩ := Build.pure_eq_ok.mp hrest
    exact hf'
  | true =>
    simp only [Bool.not_true, Bool.false_eq_true, if_false, Build.get_bind] at hrest
    obtain ⟨dead, split, hadd, hrest⟩ := Build.bind_eq_ok.mp hrest
    obtain ⟨rfl, rfl⟩ := Build.add_eq_ok hadd
    rw [Build.get_bind] at hrest
    obtain ⟨_, copied, hcopies, hpure⟩ := Build.bind_eq_ok.mp hrest
    obtain ⟨rfl, rfl⟩ := Build.pure_eq_ok.mp hpure
    simp only [Array.size_push] at hcopies ⊢
    exact hf'.copy (Build.copied hf'.grows.size_le hcopies) (copyOf_exit hnext) horigin

/-- A loop whose body is copied. -/
theorem unrolledLoop (hf : ∀ next, Lays scope (plan.iteration origin clear body next) next n)
    (horigin : scope.ids origin) :
    Lays scope (plan.unrolledLoop origin q clear n body next) next (q.min == 0 || n) := by
  intro before e after hrun hnext
  have hmoving : ∀ next, Lays scope (plan.movingIteration origin clear n body next) next false :=
    fun next => movingIteration hf horigin
  rw [BuildPlan.unrolledLoop] at hrun
  cases hmax : q.max with
  | none =>
    simp only [hmax] at hrun
    obtain ⟨head, first, hadd, hrun⟩ := Build.bind_eq_ok.mp hrun
    obtain ⟨entry, middle, hiteration, hrun⟩ := Build.bind_eq_ok.mp hrun
    obtain ⟨u, inner, hput, hrun⟩ := Build.bind_eq_ok.mp hrun
    rw [pure_bind] at hrun
    have hbody := hmoving head _ _ _ hiteration (by
      obtain ⟨rfl, rfl⟩ := Build.add_eq_ok hadd
      simp)
    exact (chain hf q.min (Laid.star hadd hbody hput horigin hnext) hnext hrun).congr (by simp)
  | some high =>
    simp only [hmax] at hrun
    obtain ⟨rest, middle, hchain, hrun⟩ := Build.bind_eq_ok.mp hrun
    have hoptions := Laid.options hmoving horigin (high - q.min) (.skip before next) hnext hchain
    exact (chain hf q.min hoptions hnext hrun).congr (by simp)

/-- A loop that counts its iterations. -/
theorem countedLoop {context : Nat} {text : Text} {f : Behavior}
    (hf : ∀ next, Lays scope (plan.iteration origin clear body next) next n)
    (hbody : ∀ next, Emits context plan.direction text
      (plan.iteration origin clear body next) next f n)
    (horigin : scope.ids origin) :
    Lays scope (plan.countedLoop origin q clear n body next) next (q.min == 0 || n) := by
  intro before e after hrun hnext
  rw [BuildPlan.countedLoop] at hrun
  cases n with
  | true => cases hrun
  | false =>
    simp only [Bool.false_eq_true, if_false] at hrun
    obtain ⟨counter, numbered, hcounter, hrun⟩ := Build.bind_eq_ok.mp hrun
    obtain ⟨head, first, hadd, hrun⟩ := Build.bind_eq_ok.mp hrun
    obtain ⟨incr, second, hadd', hrun⟩ := Build.bind_eq_ok.mp hrun
    obtain ⟨entry, middle, hiteration, hrun⟩ := Build.bind_eq_ok.mp hrun
    obtain ⟨u, patched, hput, hreset⟩ := Build.bind_eq_ok.mp hrun
    obtain ⟨rfl, rfl, rfl, hfront⟩ := Build.countedFront hcounter hadd hadd'
    have hlt : before.nodes.size + 1 < second.nodes.size := by
      rw [hfront.size]
      omega
    have hlaid := hf _ _ _ _ hiteration hlt
    obtain ⟨rfl, hcounted⟩ := hfront.counted hlaid.grows hput hreset
    exact (hlaid.counted (hbody _ _ _ _ hiteration hlt) hfront hcounted hnext horigin).congr
      (by simp)

/-- A loop in one of its two forms. -/
theorem repetition {context : Nat} {text : Text} {f : Behavior}
    (hf : ∀ next, Lays scope
      (plan.iteration origin (if plan.captures then clear else none) body next) next n)
    (hbody : ∀ next, Emits context plan.direction text
      (plan.iteration origin (if plan.captures then clear else none) body next) next f n)
    (horigin : scope.ids origin) :
    Lays scope (plan.repetition origin q clear n body next) next (q.min == 0 || n) := by
  unfold BuildPlan.repetition
  dsimp only
  split
  · exact countedLoop hf hbody horigin
  · exact unrolledLoop hf horigin

end Lays

end UnitRegex
