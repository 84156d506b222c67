import UnitRegex.Proofs.Automaton.EmitGroups

/-!
Construction of loops: around one copy of the body with a counter, or with the mandatory iterations
in front of a loop without a bound or a nest of options.
-/

namespace UnitRegex

variable {context : Nat} {text : Text} {plan : BuildPlan} {origin next : Nat} {f g : Behavior}
  {n : Bool} {clear : Option (Nat × Nat)} {body : Nat → Build Nat} {q : Quantifier}

/-- A split in front of an iteration and of what follows it. -/
theorem Emitted.option {before middle inner after : Draft} {greedy : Bool} {t entry e : Nat}
    (hg : Emitted context plan.direction text before middle [t] next g n)
    (hf : Emitted context plan.direction text middle inner [entry] t f false)
    (h : plan.add origin (.split (BuildPlan.ordered greedy entry next)) inner = .ok (e, after)) :
    Emitted context plan.direction text before after [e] next
      (Behavior.option greedy (f.andThen g)) true := by
  obtain ⟨rfl, rfl⟩ := Build.add_eq_ok h
  have hle := hg.grows.size_le
  have hle' := hf.grows.size_le
  refine ⟨(hg.grows.trans hf.grows).trans (.push inner _), fun hs => ?_, by simp; omega,
    fun nfa hd hext => ?_⟩
  · exact (hf.sound (hg.sound hs)).push trivial
  · have hin : nfa.Extends inner before.nodes.size := hext.of_grows (.push inner _)
    have hstate : nfa.state inner.nodes.size = .split (BuildPlan.ordered greedy entry next) :=
      hext.state (by omega) (n := ⟨_, origin⟩) Array.getElem?_push_size
    have hfragment := (hf.fragment nfa hd (hin.mono hle)).option
      (hg.fragment nfa hd (hin.of_grows hf.grows)) hstate hle hle' hg.grows.counters
      hf.grows.counters
    simpa using hfragment

/-- A nest of options, each in front of the one before. -/
theorem Emitted.options {greedy : Bool} {iteration : Nat → Build Nat}
    (hf : ∀ next, Emits context plan.direction text (iteration next) next
      (.moving text plan.direction f) false) (count inside : Nat) {before middle after : Draft}
    {t e : Nat} (hg : Emitted context plan.direction text before middle [t] next
      (.upTo text plan.direction greedy f inside) true) (hnext : next < before.nodes.size)
    (h : BuildPlan.chain (fun t => do
      plan.add origin (.split (BuildPlan.ordered greedy (← iteration t) next))) count t middle =
        .ok (e, after)) :
    Emitted context plan.direction text before after [e] next
      (.upTo text plan.direction greedy f (inside + count)) true := by
  induction count generalizing inside t middle with
  | zero =>
    obtain ⟨rfl, rfl⟩ := Build.pure_eq_ok.mp h
    exact hg
  | succ count ih =>
    obtain ⟨t', outer, hlayer, hrest⟩ := Build.bind_eq_ok.mp h
    obtain ⟨entry, inner, hiteration, hadd⟩ := Build.bind_eq_ok.mp hlayer
    have hlayer := hg.option (hf t _ _ _ hiteration (hg.entry_lt hnext)) hadd
    have hall := ih (inside + 1) hlayer hrest
    rwa [show inside + 1 + count = inside + (count + 1) by omega] at hall

/-- A loop without a bound. Its head is completed when the entry of its body is known. -/
theorem Emitted.star {before first middle after : Draft} {greedy : Bool} {head entry : Nat}
    {u : Unit} (hadd : plan.add origin (.split []) before = .ok (head, first))
    (hf : Emitted context plan.direction text first middle [entry] head f false)
    (hput : BuildPlan.put head (.split (BuildPlan.ordered greedy entry next)) middle =
      .ok (u, after)) (hconsumes : f.Consumes text plan.direction)
    (hg : g = .option greedy (f.andThen g)) :
    Emitted context plan.direction text before after [head] next g true := by
  obtain ⟨rfl, rfl⟩ := Build.add_eq_ok hadd
  obtain rfl := Build.put_eq_ok hput
  have hle : before.nodes.size + 1 ≤ middle.nodes.size := by
    simpa using hf.grows.size_le
  have hgrows : before.Grows middle := (Draft.Grows.push before _).trans hf.grows
  refine ⟨hgrows.put (Nat.le_refl _), fun hs => (hf.sound (hs.push trivial)).put trivial,
    by simp; omega, fun nfa hd hext => ?_⟩
  have hhead : nfa.state before.nodes.size = .split (BuildPlan.ordered greedy entry next) :=
    hext.state_of_put (Nat.le_refl _) hle
  have hbody := hf.fragment nfa hd (by
    rw [Array.size_push]
    exact (hext.mono (Nat.le_succ _)).of_put (Nat.lt_succ_self _))
  rw [Array.size_push] at hbody
  have hstar := hbody.star hhead (by rw [hd]; exact hconsumes) hg hle
  simpa using hstar

/-- What stands in front of the body of a loop that counts: its head, which leads nowhere else than
behind the loop as yet, and the state that counts. -/
structure Draft.CountedFront (before after : Draft) (q : Quantifier) (origin next : Nat) : Prop where
  grows : before.Grows after
  size : after.nodes.size = before.nodes.size + 2
  counters : after.counters = before.counters + 1
  lookBehinds : after.lookBehinds = before.lookBehinds
  sound : ∀ {context d}, before.Sound context d → after.Sound context d
  head : after.nodes[before.nodes.size]? =
    some ⟨.loop before.counters q.min q.max q.greedy next next, origin⟩
  increment : after.nodes[before.nodes.size + 1]? =
    some ⟨.increment before.counters (q.max.getD q.min) before.nodes.size, origin⟩

theorem Build.countedFront {before numbered first after : Draft} {counter head incr : Nat}
    (hcounter : BuildPlan.newCounter before = .ok (counter, numbered))
    (hhead : plan.add origin (.loop counter q.min q.max q.greedy next next) numbered =
      .ok (head, first))
    (hincr : plan.add origin (.increment counter (q.max.getD q.min) head) first =
      .ok (incr, after)) :
    counter = before.counters ∧ head = before.nodes.size ∧ incr = before.nodes.size + 1 ∧
      before.CountedFront after q origin next := by
  obtain ⟨rfl, hnumbered, hsize₀, hbehinds₀, hsound₀, hcounters₀⟩ : counter = before.counters ∧
      before.Grows numbered ∧ numbered.nodes.size = before.nodes.size ∧
      numbered.lookBehinds = before.lookBehinds ∧
      (∀ {context d}, before.Sound context d → numbered.Sound context d) ∧
      numbered.counters = before.counters + 1 := by
    cases hcounter
    exact ⟨rfl, .newCounter before, rfl, rfl,
      fun h => ⟨h.lookBehinds, h.lookAheads, h.guards⟩, rfl⟩
  obtain ⟨hgrows₁, rfl, hsize₁, hnode₁, hbehinds₁, -, hcounters₁⟩ := Build.grows_of_add hhead
  obtain ⟨hgrows₂, rfl, hsize₂, hnode₂, hbehinds₂, -, hcounters₂⟩ := Build.grows_of_add hincr
  rw [hsize₀] at hsize₁ hnode₁ hnode₂
  rw [hsize₁] at hsize₂ hnode₂
  refine ⟨rfl, hsize₀, hsize₁, (hnumbered.trans hgrows₁).trans hgrows₂, hsize₂, ?_, ?_,
    fun hs => ((hsound₀ hs).add hhead trivial).add hincr trivial, ?_, hnode₂⟩
  · rw [hcounters₂, hcounters₁, hcounters₀]
  · rw [hbehinds₂, hbehinds₁, hbehinds₀]
  · rw [hgrows₂.nodes _ (by omega), hnode₁]

/-- A loop that counts, around a body that ends with `middle`. The state that resets the counter
stands behind it, and the head knows the entry of the body. -/
structure Draft.Counted (before middle after : Draft) (q : Quantifier) (origin entry next : Nat) :
    Prop where
  grows : before.Grows after
  size : after.nodes.size = middle.nodes.size + 1
  counters : after.counters = middle.counters
  lookBehinds : after.lookBehinds = middle.lookBehinds
  lookAheads : after.lookAheads = middle.lookAheads
  sound : ∀ {context d}, middle.Sound context d → after.Sound context d
  head : after.nodes[before.nodes.size]? =
    some ⟨.loop before.counters q.min q.max q.greedy entry next, origin⟩
  increment : after.nodes[before.nodes.size + 1]? =
    some ⟨.increment before.counters (q.max.getD q.min) before.nodes.size, origin⟩
  reset : after.nodes[middle.nodes.size]? = some ⟨.reset before.counters before.nodes.size, origin⟩
  inside : ∀ s, before.nodes.size + 2 ≤ s → s < middle.nodes.size →
    after.nodes[s]? = middle.nodes[s]?

theorem Draft.CountedFront.counted {before second middle patched after : Draft} {entry e : Nat}
    {u : Unit} (h : before.CountedFront second q origin next) (hgrows : second.Grows middle)
    (hput : BuildPlan.put before.nodes.size
      (.loop before.counters q.min q.max q.greedy entry next) middle = .ok (u, patched))
    (hreset : plan.add origin (.reset before.counters before.nodes.size) patched =
      .ok (e, after)) :
    e = middle.nodes.size ∧ before.Counted middle after q origin entry next := by
  have hpatched := Build.put_eq_ok hput
  obtain ⟨hgrows', rfl, hsize, hnode, hbehinds, haheads, hcounters⟩ := Build.grows_of_add hreset
  have hfront := h.size
  have hle := hgrows.size_le
  have hsize' : patched.nodes.size = middle.nodes.size := by simp [hpatched]
  have hother : ∀ s, s ≠ before.nodes.size → s < middle.nodes.size →
      after.nodes[s]? = middle.nodes[s]? := by
    intro s hne hs
    rw [hgrows'.nodes s (by omega), hpatched, Array.getElem?_modify, if_neg hne.symm]
  refine ⟨hsize', (hpatched ▸ (h.grows.trans hgrows).put (Nat.le_refl _)).trans hgrows', by omega,
    ?_, ?_, ?_, fun hs => (hpatched ▸ hs.put trivial : patched.Sound _ _).add hreset trivial, ?_, ?_,
    hsize' ▸ hnode, fun s hs hs' => hother s (by omega) hs'⟩
  · rw [hcounters, hpatched]
  · rw [hbehinds, hpatched]
    rfl
  · rw [haheads, hpatched]
    rfl
  · rw [hgrows'.nodes _ (by omega), hpatched, Array.getElem?_modify, if_pos rfl,
      hgrows.nodes _ (by omega), h.head]
    rfl
  · rw [hother _ (by omega) (by omega), hgrows.nodes _ (by omega), h.increment]

/-- The body of a loop that counts is as it was built. -/
theorem Draft.Counted.extends {before middle after : Draft} {entry : Nat}
    (h : before.Counted middle after q origin entry next) {nfa : Nfa}
    (hext : nfa.Extends after before.nodes.size) : nfa.Extends middle (before.nodes.size + 2) where
  nodes s hs hs' := by
    have hsize := h.size
    rw [hext.nodes s (by omega) (by omega), h.inside s hs hs']
  lookBehinds := h.lookBehinds ▸ hext.lookBehinds
  lookAheads := h.lookAheads ▸ hext.lookAheads

/-- A loop that counts is a fragment if its body is one that reads. -/
theorem Emitted.counted {before second middle after : Draft} {entry : Nat}
    (hf : Emitted context plan.direction text second middle [entry] (before.nodes.size + 1) f false)
    (hfront : before.CountedFront second q origin next)
    (hcounted : before.Counted middle after q origin entry next)
    (hconsumes : f.Consumes text plan.direction)
    (hq : ∀ high, q.max = some high → q.min ≤ high) :
    Emitted context plan.direction text before after [middle.nodes.size] next
      (Behavior.repeated text plan.direction q f 0) (q.min == 0) := by
  have hsize := hcounted.size
  have hfrontSize := hfront.size
  have hle := hf.grows.size_le
  have hmore := hf.grows.counters
  have hfrontCounters := hfront.counters
  refine ⟨hcounted.grows, fun hs => hcounted.sound (hf.sound (hfront.sound hs)), by simp; omega,
    fun nfa hd hext => ?_⟩
  have hbody := hf.fragment nfa hd (hfrontSize ▸ hcounted.extends hext)
  rw [hfrontSize, hfrontCounters] at hbody
  have hloop := hbody.counted (hext.state (Nat.le_refl _) hcounted.head)
    (hext.state (Nat.le_succ _) hcounted.increment) (hext.state (by omega) hcounted.reset)
    (by rw [hd]; exact hconsumes) hq (by omega) (by omega)
  rw [hd] at hloop
  rwa [hcounted.size, hcounted.counters]

namespace Emits

/-- A loop whose body is copied. -/
theorem unrolledLoop
    (hf : ∀ next, Emits context plan.direction text
      (plan.iteration origin clear body next) next f n)
    (hconsumes : n = false → f.Consumes text plan.direction) :
    Emits context plan.direction text (plan.unrolledLoop origin q clear n body next) next
      (Behavior.repeated text plan.direction q f 0) (q.min == 0 || n) := by
  intro before e after hrun hnext
  have hmoving : ∀ next, Emits context plan.direction text
      (plan.movingIteration origin clear n body next) next (.moving text plan.direction f) false :=
    fun next => movingIteration hf hconsumes
  rw [BuildPlan.unrolledLoop] at hrun
  cases hmax : q.max with
  | none =>
    simp only [hmax] at hrun
    obtain ⟨head, first, hadd, hrun⟩ := Build.bind_eq_ok.mp hrun
    obtain ⟨entry, middle, hiteration, hrun⟩ := Build.bind_eq_ok.mp hrun
    obtain ⟨u, inner, hput, hrun⟩ := Build.bind_eq_ok.mp hrun
    rw [pure_bind] at hrun
    have hbody := hmoving head _ _ _ hiteration (by
      obtain ⟨rfl, rfl⟩ := Build.add_eq_ok hadd
      simp)
    have hstar := Emitted.star hadd hbody hput (Behavior.consumes_moving f)
      (Behavior.repeated_unbounded hmax f)
    refine (chain hf q.min hstar hnext hrun).congr ?_ (by simp)
    rw [← Behavior.repeated_eq_times]
  | some high =>
    simp only [hmax] at hrun
    obtain ⟨rest, middle, hchain, hrun⟩ := Build.bind_eq_ok.mp hrun
    have hoptions := Emitted.options hmoving (high - q.min) 0 (.skip before next) hnext hchain
    refine (chain hf q.min hoptions hnext hrun).congr ?_ (by simp)
    rw [Nat.zero_add, ← Behavior.repeated_eq_upTo hmax f (Nat.le_refl q.min),
      ← Behavior.repeated_eq_times]

/-- A loop that counts its iterations. -/
theorem countedLoop
    (hf : ∀ next, Emits context plan.direction text
      (plan.iteration origin clear body next) next f n)
    (hconsumes : n = false → f.Consumes text plan.direction)
    (hq : ∀ high, q.max = some high → q.min ≤ high) :
    Emits context plan.direction text (plan.countedLoop origin q clear n body next) next
      (Behavior.repeated text plan.direction q f 0) (q.min == 0 || n) := by
  intro before e after hrun hnext
  rw [BuildPlan.countedLoop] at hrun
  cases n with
  | true => cases hrun
  | false =>
    simp only [Bool.false_eq_true, if_false] at hrun
    obtain ⟨counter, numbered, hcounter, hrun⟩ := Build.bind_eq_ok.mp hrun
    obtain ⟨head, first, hadd, hrun⟩ := Build.bind_eq_ok.mp hrun
    obtain ⟨incr, second, hadd', hrun⟩ := Build.bind_eq_ok.mp hrun
    obtain ⟨entry, middle, hiteration, hrun⟩ := Build.bind_eq_ok.mp hrun
    obtain ⟨u, patched, hput, hreset⟩ := Build.bind_eq_ok.mp hrun
    obtain ⟨rfl, rfl, rfl, hfront⟩ := Build.countedFront hcounter hadd hadd'
    have hbody := hf _ _ _ _ hiteration (by rw [hfront.size]; omega)
    obtain ⟨rfl, hcounted⟩ := hfront.counted hbody.grows hput hreset
    exact (hbody.counted hfront hcounted (hconsumes rfl) hq).congr rfl (by simp)

/-- A loop in one of its two forms. -/
theorem repetition
    (hclear : plan.captures = true ∨ clear = none)
    (hf : ∀ next, Emits context plan.direction text
      (plan.iteration origin clear body next) next f n)
    (hconsumes : n = false → f.Consumes text plan.direction)
    (hq : ∀ high, q.max = some high → q.min ≤ high) :
    Emits context plan.direction text (plan.repetition origin q clear n body next) next
      (Behavior.repeated text plan.direction q f 0) (q.min == 0 || n) := by
  have hkeep : (if plan.captures then clear else none) = clear := by
    rcases hclear with h | h
    · rw [if_pos h]
    · simp [h]
  simp only [BuildPlan.repetition, hkeep]
  split
  · exact countedLoop hf hconsumes hq
  · exact unrolledLoop hf hconsumes

end Emits

end UnitRegex
