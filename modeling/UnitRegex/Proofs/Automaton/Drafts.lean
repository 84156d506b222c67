import UnitRegex.Proofs.Automaton.Loops

/-!
Construction of fragments. Building adds states to a draft and keeps those that are there, so what
was built stands unchanged in every automaton that the draft grows into.
-/

namespace UnitRegex

/-- A later draft has the states, bodies and counters of an earlier one. -/
structure Draft.Grows (before after : Draft) : Prop where
  size_le : before.nodes.size ≤ after.nodes.size
  nodes : ∀ s < before.nodes.size, after.nodes[s]? = before.nodes[s]?
  lookBehinds : before.lookBehinds <+: after.lookBehinds
  lookAheads : before.lookAheads <+: after.lookAheads
  counters : before.counters ≤ after.counters

/-- A guard only looks around to the right, and a look-ahead has one of some bodies. -/
def NfaState.GuardIn (d : Direction) (bodies : Nat) : NfaState → Prop
  | .assert (.behind _ _) _ => d = .forward
  | .assert (.ahead body _) _ => d = .forward ∧ body < bodies
  | _ => True

/-- Look-behinds see at most `context` units, and look-aheads have few enough branches. -/
structure Draft.Sound (context : Nat) (d : Direction) (draft : Draft) : Prop where
  lookBehinds : ∀ body ∈ draft.lookBehinds, body.length ≤ context
  lookAheads : ∀ body ∈ draft.lookAheads, body.length ≤ BuildPlan.maxLookAheadBranches
  guards : ∀ n ∈ draft.nodes, n.state.GuardIn d draft.lookAheads.length

/-- An automaton has the states of a draft from `lo` on, and all its bodies. -/
structure Nfa.Extends (nfa : Nfa) (draft : Draft) (lo : Nat) : Prop where
  nodes : ∀ s, lo ≤ s → s < draft.nodes.size → nfa.nodes[s]? = draft.nodes[s]?
  lookBehinds : draft.lookBehinds <+: nfa.lookBehinds
  lookAheads : draft.lookAheads <+: nfa.lookAheads

namespace Draft.Grows

theorem refl (draft : Draft) : draft.Grows draft :=
  ⟨Nat.le_refl _, fun _ _ => rfl, List.prefix_refl _, List.prefix_refl _, Nat.le_refl _⟩

theorem trans {a b c : Draft} (h : a.Grows b) (h' : b.Grows c) : a.Grows c where
  size_le := Nat.le_trans h.size_le h'.size_le
  nodes s hs := (h'.nodes s (Nat.lt_of_lt_of_le hs h.size_le)).trans (h.nodes s hs)
  lookBehinds := h.lookBehinds.trans h'.lookBehinds
  lookAheads := h.lookAheads.trans h'.lookAheads
  counters := Nat.le_trans h.counters h'.counters

theorem push (draft : Draft) (n : LabeledState) :
    draft.Grows { draft with nodes := draft.nodes.push n } where
  size_le := by simp
  nodes s hs := Array.getElem?_push_lt hs |>.trans (Array.getElem?_eq_getElem hs).symm
  lookBehinds := List.prefix_refl _
  lookAheads := List.prefix_refl _
  counters := Nat.le_refl _

theorem newCounter (draft : Draft) :
    draft.Grows { draft with counters := draft.counters + 1 } :=
  ⟨Nat.le_refl _, fun _ _ => rfl, List.prefix_refl _, List.prefix_refl _, Nat.le_succ _⟩

end Draft.Grows

theorem Nfa.Extends.of_grows {nfa : Nfa} {before after : Draft} {lo : Nat}
    (h : nfa.Extends after lo) (hgrows : before.Grows after) : nfa.Extends before lo where
  nodes s hlo hs :=
    (h.nodes s hlo (Nat.lt_of_lt_of_le hs hgrows.size_le)).trans (hgrows.nodes s hs)
  lookBehinds := hgrows.lookBehinds.trans h.lookBehinds
  lookAheads := hgrows.lookAheads.trans h.lookAheads

theorem Nfa.Extends.mono {nfa : Nfa} {draft : Draft} {lo lo' : Nat} (h : nfa.Extends draft lo)
    (hle : lo ≤ lo') : nfa.Extends draft lo' :=
  ⟨fun s hs => h.nodes s (Nat.le_trans hle hs), h.lookBehinds, h.lookAheads⟩

theorem Nfa.Extends.state {nfa : Nfa} {draft : Draft} {lo s : Nat} (h : nfa.Extends draft lo)
    (hlo : lo ≤ s) {n : LabeledState} (hn : draft.nodes[s]? = some n) : nfa.state s = n.state := by
  obtain ⟨hlt, -⟩ := Array.getElem?_eq_some_iff.mp hn
  rw [Nfa.state, h.nodes s hlo hlt, hn]

/-- There is a result if a test of it holds. -/
theorem exists_eq_ok_of_any {ε α : Type} {r : Except ε α} {test : α → Bool}
    (h : r.toOption.any test = true) : ∃ a, r = .ok a ∧ test a = true := by
  cases r with
  | error e => cases h
  | ok a => exact ⟨a, rfl, h⟩

namespace Build

variable {α β : Type} {before after : Draft}

theorem bind_eq_ok {m : Build α} {g : α → Build β} {b : β} :
    (m >>= g) before = .ok (b, after) ↔
      ∃ a middle, m before = .ok (a, middle) ∧ g a middle = .ok (b, after) := by
  show (m before >>= fun r => g r.1 r.2) = _ ↔ _
  cases m before with
  | error e => simp [bind, Except.bind]
  | ok r =>
    obtain ⟨a, middle⟩ := r
    simp [bind, Except.bind]

theorem pure_eq_ok {a b : α} :
    (pure a : Build α) before = .ok (b, after) ↔ b = a ∧ after = before := by
  show Except.ok (a, before) = _ ↔ _
  simp [eq_comm]

theorem get_bind (g : Draft → Build β) :
    ((get : Build Draft) >>= g) before = g before before := rfl

theorem add_eq_ok {plan : BuildPlan} {origin id : Nat} {state : NfaState}
    (h : plan.add origin state before = .ok (id, after)) :
    id = before.nodes.size ∧
      after = { before with nodes := before.nodes.push ⟨state, origin⟩ } := by
  simp only [BuildPlan.add] at h
  split at h
  · simp at h
  · simpa [eq_comm] using h

/-- What there is to know of a draft to which one state was added. -/
theorem grows_of_add {plan : BuildPlan} {origin id : Nat} {state : NfaState}
    (h : plan.add origin state before = .ok (id, after)) :
    before.Grows after ∧ id = before.nodes.size ∧ after.nodes.size = before.nodes.size + 1 ∧
      after.nodes[before.nodes.size]? = some ⟨state, origin⟩ ∧
      after.lookBehinds = before.lookBehinds ∧ after.lookAheads = before.lookAheads ∧
      after.counters = before.counters := by
  obtain ⟨rfl, rfl⟩ := add_eq_ok h
  exact ⟨.push before _, rfl, Array.size_push _, Array.getElem?_push_size, rfl, rfl, rfl⟩

theorem put_eq_ok {id : Nat} {state : NfaState} {u : Unit}
    (h : BuildPlan.put id state before = .ok (u, after)) :
    after = { before with nodes := before.nodes.modify id ({ · with state := state }) } := by
  have h' : Except.ok ((), { before with
      nodes := before.nodes.modify id ({ · with state := state }) }) =
      (Except.ok (u, after) : Except Refusal (Unit × Draft)) := h
  simpa [eq_comm] using h'

end Build

theorem NfaState.GuardIn.mono {d : Direction} {a b : Nat} {state : NfaState}
    (h : state.GuardIn d a) (hle : a ≤ b) : state.GuardIn d b := by
  unfold GuardIn at h ⊢
  split at h
  · exact h
  · exact ⟨h.1, Nat.lt_of_lt_of_le h.2 hle⟩
  · trivial

theorem NfaState.guardIn_mapEpsilon {d : Direction} {bodies : Nat} {state : NfaState}
    {rename : Nat → Nat} (h : state.GuardIn d bodies) :
    (state.mapEpsilon rename).GuardIn d bodies := by
  cases state with
  | assert guard next => cases guard <;> exact h
  | _ => trivial

namespace Draft.Sound

variable {context : Nat} {d : Direction} {draft : Draft}

theorem push (h : draft.Sound context d) {n : LabeledState}
    (hn : n.state.GuardIn d draft.lookAheads.length) :
    { draft with nodes := draft.nodes.push n }.Sound context d where
  lookBehinds := h.lookBehinds
  lookAheads := h.lookAheads
  guards m hm := by
    rcases Array.mem_push.mp hm with hm | rfl
    · exact h.guards m hm
    · exact hn

theorem add (h : draft.Sound context d) {plan : BuildPlan} {origin id : Nat} {state : NfaState}
    {after : Draft} (hadd : plan.add origin state draft = .ok (id, after))
    (hstate : state.GuardIn d draft.lookAheads.length) : after.Sound context d := by
  obtain ⟨-, rfl⟩ := Build.add_eq_ok hadd
  exact h.push hstate

theorem put (h : draft.Sound context d) {id : Nat} {state : NfaState}
    (hstate : state.GuardIn d draft.lookAheads.length) :
    { draft with nodes := draft.nodes.modify id ({ · with state := state }) }.Sound context d where
  lookBehinds := h.lookBehinds
  lookAheads := h.lookAheads
  guards m hm := by
    obtain ⟨i, hi, rfl⟩ := Array.mem_iff_getElem.mp hm
    rw [Array.getElem_modify]
    split
    · exact hstate
    · exact h.guards _ (Array.getElem_mem _)

end Draft.Sound

/-- What a construction has added to a draft: a fragment in front of `next`. -/
structure Emitted (context : Nat) (d : Direction) (text : Text) (before after : Draft)
    (entries : List Nat) (next : Nat) (f : Behavior) (nullable : Bool) : Prop where
  grows : before.Grows after
  sound : before.Sound context d → after.Sound context d
  entries_in : ∀ e ∈ entries, e = next ∨ (before.nodes.size ≤ e ∧ e < after.nodes.size)
  fragment : ∀ nfa : Nfa, nfa.direction = d → nfa.Extends after before.nodes.size →
    Fragment nfa text f nullable before.counters after.counters before.nodes.size
      after.nodes.size entries next

/-- A construction adds a fragment whenever it succeeds. -/
def Emits (context : Nat) (d : Direction) (text : Text) (m : Build Nat) (next : Nat)
    (f : Behavior) (nullable : Bool) : Prop :=
  ∀ before e after, m before = .ok (e, after) → next < before.nodes.size →
    Emitted context d text before after [e] next f nullable

/-- The same for a construction with several entries. -/
def EmitsAll (context : Nat) (d : Direction) (text : Text) (m : Build (List Nat)) (next : Nat)
    (f : Behavior) (nullable : Bool) : Prop :=
  ∀ before entries after, m before = .ok (entries, after) → next < before.nodes.size →
    Emitted context d text before after entries next f nullable

namespace Emitted

variable {context : Nat} {d : Direction} {text : Text} {before middle after : Draft}
  {entries others : List Nat} {s next : Nat} {f g : Behavior} {n m : Bool}

theorem entry_lt (h : Emitted context d text before after [s] next f n)
    (hnext : next < before.nodes.size) : s < after.nodes.size := by
  have hle := h.grows.size_le
  rcases h.entries_in s (by simp) with rfl | hs <;> omega

theorem skip (before : Draft) (next : Nat) :
    Emitted context d text before before [next] next (fun x => [x]) true where
  grows := .refl before
  sound := id
  entries_in := by simp
  fragment _ _ _ := .skip _ _ _

theorem seq (hg : Emitted context d text before middle [s] next g m)
    (hf : Emitted context d text middle after entries s f n) :
    Emitted context d text before after entries next (f.andThen g) (n && m) where
  grows := hg.grows.trans hf.grows
  sound h := hf.sound (hg.sound h)
  entries_in e he := by
    have hle := hg.grows.size_le
    have hle' := hf.grows.size_le
    have hs := hg.entries_in s (by simp)
    rcases hf.entries_in e he with rfl | h <;> omega
  fragment nfa hd hext :=
    (hf.fragment nfa hd (hext.mono hg.grows.size_le)).seq
      (hg.fragment nfa hd (hext.of_grows hf.grows)) hg.grows.size_le hf.grows.size_le
      hg.grows.counters hf.grows.counters

theorem alt (hf : Emitted context d text before middle entries next f n)
    (hg : Emitted context d text middle after others next g m) :
    Emitted context d text before after (entries ++ others) next (f.orElse g) (n || m) where
  grows := hf.grows.trans hg.grows
  sound h := hg.sound (hf.sound h)
  entries_in e he := by
    have hle := hf.grows.size_le
    have hle' := hg.grows.size_le
    rcases List.mem_append.mp he with he | he
    · have := hf.entries_in e he
      omega
    · have := hg.entries_in e he
      omega
  fragment nfa hd hext :=
    (hf.fragment nfa hd (hext.of_grows hg.grows)).alt
      (hg.fragment nfa hd (hext.mono hf.grows.size_le)) hf.grows.size_le hg.grows.size_le
      hf.grows.counters hg.grows.counters

theorem congr {f' : Behavior} {n' : Bool} (h : Emitted context d text before after entries next f n)
    (hf : f = f') (hn : n = n') : Emitted context d text before after entries next f' n' := by
  subst hf hn
  exact h

end Emitted

namespace Emits

variable {context : Nat} {d : Direction} {text : Text} {plan : BuildPlan} {next : Nat}
  {f g : Behavior} {n m : Bool}

theorem congr {build : Build Nat} {f' : Behavior} {n' : Bool}
    (h : Emits context d text build next f n) (hf : f = f') (hn : n = n') :
    Emits context d text build next f' n' := by
  subst hf hn
  exact h

theorem skip : Emits context d text (pure next) next (fun x => [x]) true := by
  intro before e after h _
  obtain ⟨rfl, rfl⟩ := Build.pure_eq_ok.mp h
  exact .skip _ _

/-- Adding one state that is a fragment by itself. -/
theorem add {origin : Nat} {state : NfaState} (hguard : ∀ bodies, state.GuardIn d bodies)
    (h : ∀ (nfa : Nfa) (s clo : Nat), nfa.direction = d → nfa.state s = state →
      Fragment nfa text f n clo clo s (s + 1) [s] next) :
    Emits context d text (plan.add origin state) next f n := by
  intro before e after hadd _
  obtain ⟨rfl, rfl⟩ := Build.add_eq_ok hadd
  refine ⟨.push before _, fun hs => hs.push (hguard _), by simp, ?_⟩
  intro nfa hd hext
  have hstate : nfa.state before.nodes.size = state :=
    hext.state (Nat.le_refl _) (n := ⟨state, origin⟩) Array.getElem?_push_size
  have hfragment := h nfa before.nodes.size before.counters hd hstate
  simpa using hfragment

/-- The part behind is built first. -/
theorem bind {rest : Build Nat} {front : Nat → Build Nat}
    (hg : Emits context d text rest next g m)
    (hf : ∀ e, Emits context d text (front e) e f n) :
    Emits context d text (rest >>= front) next (f.andThen g) (n && m) := by
  intro before e after h hnext
  obtain ⟨s, middle, hrest, hfront⟩ := Build.bind_eq_ok.mp h
  have hg' := hg _ _ _ hrest hnext
  exact hg'.seq (hf s _ _ _ hfront (hg'.entry_lt hnext))

/-- A number of copies, each in front of the one before. -/
theorem chain {compile : Nat → Build Nat} (hf : ∀ e, Emits context d text (compile e) e f n)
    (count : Nat) {before middle after : Draft} {s e : Nat}
    (hg : Emitted context d text before middle [s] next g m) (hnext : next < before.nodes.size)
    (h : BuildPlan.chain compile count s middle = .ok (e, after)) :
    Emitted context d text before after [e] next (Behavior.times f count g)
      ((count == 0 || n) && m) := by
  induction count generalizing s middle g m with
  | zero =>
    obtain ⟨rfl, rfl⟩ := Build.pure_eq_ok.mp h
    exact hg.congr rfl (by simp)
  | succ count ih =>
    obtain ⟨s', middle', hfront, hrest⟩ := Build.bind_eq_ok.mp h
    have hstep := hg.seq (hf s _ _ _ hfront (hg.entry_lt hnext))
    refine (ih hstep hrest).congr rfl ?_
    cases n <;> simp

end Emits

end UnitRegex
