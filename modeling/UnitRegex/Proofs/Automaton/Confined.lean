import UnitRegex.Proofs.Automaton.Compile

/-!
What a construction keeps. A property of drafts that every state and every body of a pattern keeps
is one of the whole automaton. A construction is refused for a construct or for a size only; that
the pattern has its ids is known beforehand.
-/

namespace UnitRegex

/-- A refusal of a construct or of a size, which says nothing against the pattern's ids. -/
def Refusal.IsLimit : Refusal → Prop
  | .unsupported _ | .tooManyStates _ => True
  | .alreadyNumbered _ _ | .notNumbered => False

/-- A state that tests no unit. -/
def NfaState.Free : NfaState → Prop
  | unit _ _ => False
  | _ => True

/-- A property of drafts that is kept as long as states and bodies of some kinds are added, and not
more states than a limit has room for. -/
structure Draft.Invariant (limit : Nat) where
  Holds : Draft → Prop
  Allows : NfaState → Prop
  AllowsBehind : List CharSet → Prop
  AllowsAhead : List (List CharSet) → Prop
  allows_of_free : ∀ {s : NfaState}, s.Free → Allows s
  allows_of_mem : ∀ {draft : Draft}, Holds draft → ∀ n ∈ draft.nodes, Allows n.state
  mapEpsilon : ∀ {s : NfaState}, Allows s → ∀ f, Allows (s.mapEpsilon f)
  push : ∀ {draft : Draft} {n : LabeledState}, Holds draft → draft.nodes.size < limit →
    Allows n.state → Holds { draft with nodes := draft.nodes.push n }
  put : ∀ {draft : Draft} {state : NfaState}, Holds draft → Allows state → ∀ id,
    Holds { draft with nodes := draft.nodes.modify id ({ · with state := state }) }
  newCounter : ∀ {draft : Draft}, Holds draft →
    Holds { draft with counters := draft.counters + 1 }
  -- A body is only added together with a state that uses it.
  pushBehind : ∀ {draft : Draft} {n : LabeledState} {body : List CharSet}, Holds draft →
    draft.nodes.size < limit → Allows n.state → AllowsBehind body →
    Holds { draft with
      nodes := draft.nodes.push n
      behinds := (draft.behinds.add body).2 }
  pushAhead : ∀ {draft : Draft} {n : LabeledState} {branches : List (List CharSet)}, Holds draft →
    draft.nodes.size < limit → Allows n.state → AllowsAhead branches →
    Holds { draft with
      nodes := draft.nodes.push n
      aheads := (draft.aheads.add branches).2 }

namespace Build

variable {α β : Type} {limit : Nat} {inv : Draft.Invariant limit} {m : Build α} {f : α → Build β}

/-- A step keeps a property, and is refused for a limit if it is refused. -/
def Confined (inv : Draft.Invariant limit) (m : Build α) : Prop :=
  ∀ draft, inv.Holds draft →
    (∀ a after, m draft = .ok (a, after) → inv.Holds after) ∧ ∀ r, m draft = .error r → r.IsLimit

theorem Confined.of_ok
    (h : ∀ draft, inv.Holds draft → ∃ a after, m draft = .ok (a, after) ∧ inv.Holds after) :
    m.Confined inv := by
  intro draft hdraft
  obtain ⟨a, after, hm, hafter⟩ := h draft hdraft
  rw [hm]
  constructor
  · intro b after' hb
    obtain ⟨-, rfl⟩ := Prod.mk.inj (Except.ok.inj hb)
    exact hafter
  · intro r hr
    cases hr

theorem confined_pure (a : α) : Confined inv (pure a : Build α) :=
  .of_ok fun draft hdraft => ⟨a, draft, rfl, hdraft⟩

theorem Confined.bind (hm : m.Confined inv) (hf : ∀ a, (f a).Confined inv) :
    (m >>= f).Confined inv := by
  intro draft hdraft
  have hrun : (m >>= f) draft = (m draft >>= fun result => f result.1 result.2) := rfl
  obtain ⟨hok, herror⟩ := hm draft hdraft
  rw [hrun]
  cases hresult : m draft with
  | error r =>
    constructor
    · intro b after hb
      cases hb
    · intro r' hr
      obtain rfl : r = r' := Except.error.inj hr
      exact herror r hresult
  | ok result => exact hf result.1 result.2 (hok result.1 result.2 hresult)

theorem confined_get_bind {g : Draft → Build β}
    (hg : ∀ draft, inv.Holds draft → (g draft).Confined inv) :
    ((get : Build Draft) >>= g).Confined inv := by
  intro draft hdraft
  exact hg draft hdraft draft hdraft

theorem confined_refuse (c : Construct) : Confined inv (BuildPlan.refuse c : Build α) := by
  intro draft _
  constructor
  · intro a after ha
    cases ha
  · intro r hr
    obtain rfl : .unsupported c = r := Except.error.inj hr
    trivial

end Build

/-! ### Parts -/

mutual

/-- The terms that are compiled as a whole, from left to right. -/
def Term.parts : Term → List Term
  | .group _ _ body => body.parts
  | .unit set => [.unit set]
  | .anchor kind => [.anchor kind]
  | .look behind negated body => [.look behind negated body]
  | .backReference n => [.backReference n]

def Branch.parts : Branch → List Term
  | .nil => []
  | .cons t rest => t.parts ++ rest.parts

def Choice.parts : Choice → List Term
  | .one b => b.parts
  | .more b rest => b.parts ++ rest.parts

end

/-- What a part of a pattern adds is allowed. -/
def Draft.Invariant.Admits {limit : Nat} (inv : Draft.Invariant limit) : Term → Prop
  | .unit set => ∀ next, inv.Allows (.unit set next)
  -- A line start looks behind for the end of a line.
  | .anchor .caret => inv.AllowsBehind [CharSet.lineTerminators.complement]
  | .look true _ body => ∀ sets, body.soleSequence? = some sets → inv.AllowsBehind sets
  | .look false _ body => ∀ branches, body.plain? = some branches → inv.AllowsAhead branches
  | .anchor _ | .backReference _ | .group _ _ _ => True

namespace BuildPlan

open Build

variable {plan : BuildPlan} {inv : Draft.Invariant plan.config.maxAutomatonStates}
  {origin id next : Nat}

theorem isLimit_of_add {state : NfaState} {draft : Draft} {r : Refusal}
    (h : plan.add origin state draft = .error r) : r.IsLimit := by
  simp only [add] at h
  split at h
  · obtain rfl := Except.error.inj h
    trivial
  · cases h

theorem lt_of_add_eq_ok {state : NfaState} {draft after : Draft} {id : Nat}
    (h : plan.add origin state draft = .ok (id, after)) :
    draft.nodes.size < plan.config.maxAutomatonStates := by
  simp only [add] at h
  split at h
  · cases h
  · rename_i hroom
    exact Nat.lt_of_not_le hroom

theorem confined_add (origin : Nat) {state : NfaState} (hstate : inv.Allows state) :
    Confined inv (plan.add origin state) := by
  intro draft hdraft
  constructor
  · intro id after hadd
    have hroom := lt_of_add_eq_ok hadd
    obtain ⟨-, rfl⟩ := add_eq_ok hadd
    exact inv.push hdraft hroom hstate
  · exact fun r => isLimit_of_add

theorem confined_put (id : Nat) {state : NfaState} (hstate : inv.Allows state) :
    Confined inv (put id state) :=
  .of_ok fun _ hdraft => ⟨(), _, rfl, inv.put hdraft hstate id⟩

theorem confined_add_free (origin : Nat) {state : NfaState} (hstate : state.Free) :
    Confined inv (plan.add origin state) :=
  confined_add origin (inv.allows_of_free hstate)

theorem confined_put_free (id : Nat) {state : NfaState} (hstate : state.Free) :
    Confined inv (put id state) :=
  confined_put id (inv.allows_of_free hstate)

theorem confined_newCounter : Confined inv newCounter :=
  .of_ok fun draft hdraft => ⟨draft.counters, _, rfl, inv.newCounter hdraft⟩

/-- A body is noted and a state that uses it is added. -/
theorem confined_note_add {note : Build Nat} (hnote : ∀ draft, inv.Holds draft → ∃ i noted,
      note draft = .ok (i, noted) ∧ noted.nodes = draft.nodes ∧
        ∀ n : LabeledState, draft.nodes.size < plan.config.maxAutomatonStates → inv.Allows n.state →
          inv.Holds { noted with nodes := noted.nodes.push n })
    {state : Nat → NfaState} (hstate : ∀ i, inv.Allows (state i)) :
    Confined inv (note >>= fun i => plan.add origin (state i)) := by
  intro draft hdraft
  obtain ⟨i, noted, hrun, hnodes, hpush⟩ := hnote draft hdraft
  have hbind : (note >>= fun i => plan.add origin (state i)) draft =
      (note draft >>= fun result => plan.add origin (state result.1) result.2) := rfl
  rw [hbind, hrun]
  constructor
  · intro a after ha
    have hroom := lt_of_add_eq_ok ha
    obtain ⟨-, rfl⟩ := add_eq_ok ha
    exact hpush _ (hnodes ▸ hroom) (hstate i)
  · exact fun r => isLimit_of_add

theorem confined_addBehind {body : List CharSet} (hbody : inv.AllowsBehind body)
    {state : Nat → NfaState} (hstate : ∀ i, inv.Allows (state i)) :
    Confined inv (addLookBehind body >>= fun i => plan.add origin (state i)) :=
  confined_note_add (fun draft hdraft =>
    ⟨_, { draft with behinds := (draft.behinds.add body).2 }, rfl, rfl,
      fun _ hroom hn => inv.pushBehind hdraft hroom hn hbody⟩) hstate

theorem confined_addAhead {branches : List (List CharSet)} (hbranches : inv.AllowsAhead branches)
    {state : Nat → NfaState} (hstate : ∀ i, inv.Allows (state i)) :
    Confined inv (addLookAhead branches >>= fun i => plan.add origin (state i)) :=
  confined_note_add (fun draft hdraft =>
    ⟨_, { draft with aheads := (draft.aheads.add branches).2 }, rfl, rfl,
      fun _ hroom hn => inv.pushAhead hdraft hroom hn hbranches⟩) hstate

theorem confined_anchor {a : Anchor} (ha : inv.Admits (.anchor a)) :
    Confined inv (plan.anchor origin next a) := by
  cases a with
  | caret =>
    rw [anchor]
    split
    · split
      · exact confined_refuse _
      · exact confined_addBehind ha fun _ => inv.allows_of_free trivial
    · exact confined_add_free _ trivial
  | dollar =>
    rw [anchor]
    split
    · exact confined_refuse _
    · exact confined_add_free _ trivial
  | wordBoundary => exact confined_refuse _
  | notWordBoundary => exact confined_refuse _

theorem confined_lookBehind (negated : Bool) {body : Choice}
    (hbody : ∀ sets, body.soleSequence? = some sets → inv.AllowsBehind sets) :
    Confined inv (plan.lookBehind origin next negated body) := by
  unfold lookBehind
  split
  · exact confined_refuse _
  · split
    · exact confined_refuse _
    · rename_i sets hsole
      exact confined_addBehind (hbody sets hsole) fun _ => inv.allows_of_free trivial

theorem confined_lookAhead (negated : Bool) {body : Choice}
    (hbody : ∀ branches, body.plain? = some branches → inv.AllowsAhead branches) :
    Confined inv (plan.lookAhead origin next negated body) := by
  unfold lookAhead
  split
  · exact confined_refuse _
  · split
    · exact confined_refuse _
    · rename_i branches hplain
      split
      · exact confined_refuse _
      · split
        · exact confined_refuse _
        · exact confined_addAhead (hbody branches hplain) fun _ => inv.allows_of_free trivial

theorem confined_join (origin : Nat) (entries : List Nat) :
    Confined inv (plan.join origin entries) := by
  unfold join
  split
  · exact confined_pure _
  · exact confined_add_free _ trivial

theorem confined_groupPass (capture : Option Nat) {branches : Nat → Build (List Nat)}
    (hbranches : ∀ exit, (branches exit).Confined inv) (next : Nat) :
    Confined inv (plan.groupPass origin capture branches next) := by
  have hjoined (exit : Nat) : Confined inv (branches exit >>= plan.join origin) :=
    (hbranches exit).bind (confined_join origin)
  cases capture with
  | none =>
    rw [groupPass_of_none (.inr rfl)]
    exact hjoined next
  | some g =>
    by_cases hcaptures : plan.captures = true
    · rw [groupPass_of_some hcaptures]
      apply Confined.bind
      · exact confined_add_free _ trivial
      intro exit
      exact (hjoined exit).bind fun _ => confined_add_free _ trivial
    · rw [groupPass_of_none (.inl (by simpa using hcaptures))]
      exact hjoined next

section

variable {clear : Option (Nat × Nat)} {nullable : Bool} {q : Quantifier} {body : Nat → Build Nat}
  (hbody : ∀ next, (body next).Confined inv)
include hbody

theorem confined_iteration (next : Nat) : Confined inv (plan.iteration origin clear body next) := by
  apply (hbody next).bind
  intro entry
  cases clear with
  | none => exact confined_pure _
  | some clear => exact confined_add_free _ trivial

omit hbody in
theorem confined_addCopies (rename : Nat → Nat) (count : Nat) (first : Nat) :
    Confined inv (plan.addCopies rename first count) := by
  induction count generalizing first with
  | zero => exact confined_pure _
  | succ count ih =>
    apply confined_get_bind
    intro draft hdraft
    dsimp only
    split
    · rename_i n hn
      have hcopy := inv.mapEpsilon (inv.allows_of_mem hdraft n (Array.mem_of_getElem? hn)) rename
      exact ((confined_add _ hcopy).bind fun _ => confined_pure _).bind fun _ => ih _
    · exact ih _

theorem confined_chain (count next : Nat) : Confined inv (chain body count next) := by
  induction count generalizing next with
  | zero => exact confined_pure _
  | succ count ih => exact (hbody next).bind ih

theorem confined_movingIteration (next : Nat) :
    Confined inv (plan.movingIteration origin clear nullable body next) := by
  apply confined_get_bind
  intro before _
  apply (confined_iteration hbody next).bind
  intro entry
  split
  · exact confined_pure _
  · apply confined_get_bind
    intro middle _
    apply Confined.bind
    · exact confined_add_free _ trivial
    intro dead
    apply confined_get_bind
    intro after _
    exact (confined_addCopies _ _ _).bind fun _ => confined_pure _

theorem confined_countedLoop (next : Nat) :
    Confined inv (plan.countedLoop origin q clear nullable body next) := by
  unfold countedLoop
  split
  · exact confined_refuse _
  · apply confined_newCounter.bind
    intro counter
    apply Confined.bind
    · exact confined_add_free _ trivial
    intro head
    apply Confined.bind
    · exact confined_add_free _ trivial
    intro incr
    apply (confined_iteration hbody _).bind
    intro entry
    exact Confined.bind (confined_put_free _ trivial) fun _ => confined_add_free _ trivial

theorem confined_unrolledLoop (next : Nat) :
    Confined inv (plan.unrolledLoop origin q clear nullable body next) := by
  have hmandatory (rest : Nat) :
      Confined inv (chain (plan.iteration origin clear body) q.min rest) :=
    confined_chain (confined_iteration hbody) _ _
  unfold unrolledLoop
  dsimp only
  split
  · apply Confined.bind
    · exact confined_add_free _ trivial
    intro head
    apply (confined_movingIteration hbody _).bind
    intro entry
    exact Confined.bind (confined_put_free _ trivial) fun _ => (confined_pure _).bind hmandatory
  · apply Confined.bind _ hmandatory
    apply confined_chain
    intro t
    exact (confined_movingIteration hbody _).bind fun _ => confined_add_free _ trivial

theorem confined_repetition (next : Nat) :
    Confined inv (plan.repetition origin q clear nullable body next) := by
  unfold repetition
  dsimp only
  split
  · exact confined_countedLoop hbody next
  · exact confined_unrolledLoop hbody next

end

end BuildPlan

open Build BuildPlan

section

variable {plan : BuildPlan} {inv : Draft.Invariant plan.config.maxAutomatonStates}

mutual

/-- A term adds what its parts add. -/
theorem Term.confined_compile (t : Term) (ht : ∀ x ∈ t.parts, inv.Admits x) (id next : Nat) :
    Confined inv (t.compile plan id next) := by
  match t with
  | .unit set => exact confined_add _ (ht _ List.mem_cons_self next)
  | .anchor a => exact confined_anchor (ht _ List.mem_cons_self)
  | .look true negated body => exact confined_lookBehind negated (ht _ List.mem_cons_self)
  | .look false negated body => exact confined_lookAhead negated (ht _ List.mem_cons_self)
  | .backReference _ => exact confined_refuse _
  | .group capture none body =>
    apply confined_groupPass
    exact body.confined_compile ht (id + 1)
  | .group capture (some q) body =>
    apply confined_repetition
    apply confined_groupPass
    exact body.confined_compile ht (id + 1)

theorem Branch.confined_compile (b : Branch) (hb : ∀ x ∈ b.parts, inv.Admits x) (id next : Nat) :
    Confined inv (b.compile plan id next) := by
  match b with
  | .nil => exact confined_pure _
  | .cons t rest =>
    have ht := t.confined_compile fun x hx => hb x (List.mem_append_left _ hx)
    have hrest := rest.confined_compile fun x hx => hb x (List.mem_append_right _ hx)
    rw [Branch.compile]
    split
    · exact (hrest _ _).bind fun _ => ht _ _
    · exact (ht _ _).bind fun _ => hrest _ _

theorem Choice.confined_compile (c : Choice) (hc : ∀ x ∈ c.parts, inv.Admits x) (id next : Nat) :
    Confined inv (c.compile plan id next) := by
  match c with
  | .one b => exact (b.confined_compile hc _ _).bind fun _ => confined_pure _
  | .more b rest =>
    have hb := b.confined_compile fun x hx => hc x (List.mem_append_left _ hx)
    have hrest := rest.confined_compile fun x hx => hc x (List.mem_append_right _ hx)
    exact (hb _ _).bind fun _ => (hrest _ _).bind fun _ => confined_pure _

end

end

namespace BuildPlan

variable {plan : BuildPlan} {inv : Draft.Invariant plan.config.maxAutomatonStates} {p : Pattern}

section

variable (hfull : ∀ next, inv.Allows (.unit .full next))
include hfull

theorem confined_addEntries (layout : IdLayout) (anchored unanchored : List Nat)
    (lastAnchored lastUnanchored skipped count : Nat) :
    Confined inv (plan.addEntries layout anchored unanchored lastAnchored lastUnanchored skipped
      count) := by
  induction count generalizing anchored unanchored lastAnchored lastUnanchored skipped with
  | zero => exact confined_pure _
  | succ count ih =>
    apply Confined.bind
    · exact confined_add _ (hfull _)
    intro a
    exact Confined.bind (confined_add _ (hfull _)) fun u => ih _ _ _ _ _

theorem confined_addSearchLoop (layout : IdLayout) (start : Nat) :
    Confined inv (plan.addSearchLoop layout start) := by
  apply Confined.bind
  · exact confined_add_free _ trivial
  intro split
  apply Confined.bind
  · exact confined_add _ (hfull _)
  intro skip
  exact Confined.bind (confined_put_free _ trivial) fun _ => confined_pure _

theorem confined_run (hp : ∀ x ∈ p.body.parts, inv.Admits x) : Confined inv (plan.run p) := by
  unfold run
  apply Confined.bind
  · exact confined_add_free _ trivial
  intro accept
  apply (p.root.confined_compile hp _ _).bind
  intro start
  have hfinish (entries : List Nat × List Nat) : Confined inv (do
      let draft ← get
      return ({
        nodes := draft.nodes
        start := start
        anchored := entries.1
        unanchored := entries.2
        lookBehinds := draft.lookBehinds
        lookAheads := draft.lookAheads
        counters := draft.counters
        groupCount := p.groupCount
        direction := plan.direction } : Nfa)) :=
    confined_get_bind fun _ _ => confined_pure _
  have hentries (search : Nat) := (confined_addEntries hfull p.layout [start] [search] start
    search 1 p.context).bind hfinish
  dsimp only
  split
  · exact (confined_pure _).bind hfinish
  · split
    · exact (confined_pure _).bind hentries
    · exact (confined_addSearchLoop hfull _ _).bind hentries

end

/-- The automaton is what the draft is in the end. -/
theorem of_run {before after : Draft} {nfa : Nfa} (h : plan.run p before = .ok (nfa, after)) :
    nfa.nodes = after.nodes ∧ nfa.lookBehinds = after.lookBehinds ∧
      nfa.lookAheads = after.lookAheads := by
  unfold run at h
  obtain ⟨accept, first, -, h⟩ := Build.bind_eq_ok.mp h
  obtain ⟨start, second, -, h⟩ := Build.bind_eq_ok.mp h
  cases hd : plan.direction with
  | backward =>
    simp only [hd] at h
    obtain ⟨rfl, rfl⟩ := Prod.mk.inj (Except.ok.inj h)
    exact ⟨rfl, rfl, rfl⟩
  | forward =>
    cases hsticky : p.flags.sticky with
    | true =>
      simp only [hd, hsticky, if_true, pure_bind] at h
      obtain ⟨entries, third, -, h⟩ := Build.bind_eq_ok.mp h
      obtain ⟨rfl, rfl⟩ := Prod.mk.inj (Except.ok.inj h)
      exact ⟨rfl, rfl, rfl⟩
    | false =>
      simp only [hd, hsticky, Bool.false_eq_true, if_false] at h
      obtain ⟨search, looped, -, h⟩ := Build.bind_eq_ok.mp h
      obtain ⟨entries, third, -, h⟩ := Build.bind_eq_ok.mp h
      obtain ⟨rfl, rfl⟩ := Prod.mk.inj (Except.ok.inj h)
      exact ⟨rfl, rfl, rfl⟩

end BuildPlan

namespace Nfa

variable {p : NumberedPattern} {config : Config}

/-- A numbered pattern is refused for a construct, or its automaton is what a run builds. -/
theorem build_eq_or (direction : Direction) (hnumbered : p.numbered = true) :
    (∃ c, Nfa.build p config direction = .error (.unsupported c)) ∨
      Nfa.build p config direction =
        (BuildPlan.run ⟨config, direction, p.flags.multiline⟩ p.toPattern).run' {} := by
  simp only [Nfa.build, hnumbered, Bool.not_true, Bool.false_eq_true, if_false]
  split
  · exact .inl ⟨_, rfl⟩
  · split
    · exact .inl ⟨_, rfl⟩
    · split
      · exact .inl ⟨_, rfl⟩
      · exact .inr rfl

/-- What a build gives: an automaton from a draft that has every property its parts allow, or a
refusal for a limit. -/
theorem build_keeps (inv : Draft.Invariant config.maxAutomatonStates) (hempty : inv.Holds {})
    (hfull : ∀ next, inv.Allows (.unit .full next)) (hp : ∀ x ∈ p.body.parts, inv.Admits x)
    (direction : Direction) (hnumbered : p.numbered = true) :
    (∀ nfa, Nfa.build p config direction = .ok nfa → ∃ draft, inv.Holds draft ∧
      nfa.nodes = draft.nodes ∧ nfa.lookBehinds = draft.lookBehinds ∧
        nfa.lookAheads = draft.lookAheads) ∧
      ∀ r, Nfa.build p config direction = .error r → r.IsLimit := by
  rcases build_eq_or direction hnumbered with ⟨c, hc⟩ | hrun
  · rw [hc]
    constructor
    · intro nfa hnfa
      cases hnfa
    · intro r hr
      obtain rfl := Except.error.inj hr
      trivial
  · let plan : BuildPlan := ⟨config, direction, p.flags.multiline⟩
    have hconfined : Confined inv (plan.run p.toPattern) :=
      @BuildPlan.confined_run plan inv p.toPattern hfull hp
    have hrun' := hconfined {} hempty
    rw [hrun, StateT.run']
    cases hresult : plan.run p.toPattern {} with
    | error r' =>
      constructor
      · intro nfa hnfa
        cases hnfa
      · intro r hr
        obtain rfl : r' = r := Except.error.inj hr
        exact hrun'.2 r' hresult
    | ok result =>
      obtain ⟨nfa, after⟩ := result
      constructor
      · intro nfa' hnfa
        obtain rfl : nfa = nfa' := Except.ok.inj hnfa
        exact ⟨after, hrun'.1 nfa after hresult, BuildPlan.of_run hresult⟩
      · intro r hr
        cases hr

end Nfa

end UnitRegex
