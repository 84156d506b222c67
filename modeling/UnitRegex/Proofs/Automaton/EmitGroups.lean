import UnitRegex.Proofs.Automaton.Drafts
import UnitRegex.Proofs.Matching.Frame
import UnitRegex.Proofs.Matching.Plain

/-!
Construction of groups and of single iterations. A pass through a group saves the position at both
of its ends; an iteration unsets the captures inside first; one that has to move gets a copy of its
states.
-/

namespace UnitRegex

namespace BuildPlan

/-- One entry in place of several. -/
def join (plan : BuildPlan) (origin : Nat) : List Nat → Build Nat
  | [entry] => pure entry
  | entries => plan.add origin (.split entries)

theorem join_of_ne (plan : BuildPlan) (origin : Nat) {entries : List Nat}
    (h : ∀ entry, entries ≠ [entry]) :
    plan.join origin entries = plan.add origin (.split entries) := by
  match entries with
  | [entry] => exact absurd rfl (h entry)
  | [] | _ :: _ :: _ => rfl

theorem groupPass_of_none {plan : BuildPlan} {origin : Nat} {capture : Option Nat}
    (h : plan.captures = false ∨ capture = none) (branches : Nat → Build (List Nat))
    (next : Nat) :
    plan.groupPass origin capture branches next = (branches next >>= plan.join origin) := by
  have hfilter : (capture.filter fun _ => plan.captures) = none := by
    rcases h with h | rfl
    · simp [h]
    · rfl
  simp only [groupPass, hfilter, pure_bind, bind_pure]
  refine bind_congr fun entries => ?_
  match entries with
  | [entry] => rfl
  | [] | _ :: _ :: _ => rfl

theorem groupPass_of_some {plan : BuildPlan} (h : plan.captures = true) (origin g : Nat)
    (branches : Nat → Build (List Nat)) (next : Nat) :
    plan.groupPass origin (some g) branches next =
      (plan.add origin (.save (2 * g + 1) next) >>= fun exit =>
        (branches exit >>= plan.join origin) >>= fun entry =>
          plan.add origin (.save (2 * g) entry)) := by
  have hfilter : ((some g).filter fun _ => plan.captures) = some g := by simp [h]
  simp only [groupPass, hfilter, pure_bind, bind_assoc]
  refine bind_congr fun exit => bind_congr fun entries => ?_
  match entries with
  | [entry] => simp [join]
  | [] | _ :: _ :: _ => rfl

end BuildPlan

namespace Emits

variable {context : Nat} {text : Text} {plan : BuildPlan} {origin next : Nat}
  {f : Behavior} {n : Bool}

theorem join {branches : Build (List Nat)}
    (h : EmitsAll context plan.direction text branches next f n) :
    Emits context plan.direction text (branches >>= plan.join origin) next f n := by
  intro before e after hrun hnext
  obtain ⟨entries, middle, hbranches, hjoin⟩ := Build.bind_eq_ok.mp hrun
  have hf := h _ _ _ hbranches hnext
  by_cases hone : ∃ entry, entries = [entry]
  · obtain ⟨entry, rfl⟩ := hone
    obtain ⟨rfl, rfl⟩ := Build.pure_eq_ok.mp hjoin
    exact hf
  · rw [plan.join_of_ne origin fun entry h => hone ⟨entry, h⟩] at hjoin
    obtain ⟨rfl, rfl⟩ := Build.add_eq_ok hjoin
    have hle := hf.grows.size_le
    refine ⟨hf.grows.trans (.push middle _), fun hs => (hf.sound hs).push trivial, by simp; omega,
      fun nfa hd hext => ?_⟩
    · have hstate : nfa.state middle.nodes.size = .split entries :=
        hext.state hf.grows.size_le (n := ⟨.split entries, origin⟩) Array.getElem?_push_size
      have hfragment := (hf.fragment nfa hd (hext.of_grows (.push middle _))).split
        hf.grows.size_le hstate
      simpa using hfragment

theorem save {d : Direction} (slot : Nat) :
    Emits context d text (plan.add origin (.save slot next)) next (Behavior.save slot) true :=
  .add (fun _ => trivial) fun _ _ _ _ hstate => Fragment.of_save hstate

/-- One pass through a group whose body leaves the start of the group alone. -/
theorem groupPass {capture : Option Nat} {branches : Nat → Build (List Nat)}
    (hcapture : plan.captures = true ∨ capture = none)
    (hf : ∀ next, EmitsAll context plan.direction text (branches next) next f n)
    (hignores : ∀ g, capture = some g → f.Ignores (2 * g)) :
    Emits context plan.direction text (plan.groupPass origin capture branches next) next
      (Behavior.pass plan.direction capture none f) n := by
  cases capture with
  | none =>
    rw [BuildPlan.groupPass_of_none (.inr rfl), Behavior.pass_none_none]
    exact join (hf next)
  | some g =>
    have hcaptures : plan.captures = true := hcapture.resolve_right (by simp)
    have hd : plan.direction = .forward := by simpa [BuildPlan.captures] using hcaptures
    have hbehavior : Behavior.pass plan.direction (some g) none f =
        ((Behavior.save (2 * g)).andThen f).andThen (Behavior.save (2 * g + 1)) := by
      rw [hd, Behavior.pass_eq_save (hignores g rfl), Behavior.andThen_assoc]
    rw [BuildPlan.groupPass_of_some hcaptures, hbehavior]
    refine Emits.congr (Emits.bind (save (2 * g + 1)) fun exit =>
      Emits.bind (join (hf exit)) fun entry => save (2 * g)) rfl (by simp)

/-- An iteration unsets the captures inside before its pass. -/
theorem iteration {clear : Option (Nat × Nat)} {body : Nat → Build Nat}
    (hf : ∀ next, Emits context plan.direction text (body next) next f n) :
    Emits context plan.direction text (plan.iteration origin clear body next) next
      (Behavior.andThen (fun x => [x.clear clear]) f) n := by
  cases clear with
  | none =>
    have hbehavior : Behavior.andThen (fun x => [x.clear none]) f = f := by
      funext x
      simp [Behavior.andThen, MatchState.clear]
    rw [hbehavior]
    simp only [BuildPlan.iteration, bind_pure]
    exact hf next
  | some range =>
    obtain ⟨lo, hi⟩ := range
    exact Emits.congr (Emits.bind (hf next) fun entry =>
      .add (fun _ => trivial) fun _ _ _ _ hstate => Fragment.of_unset hstate) rfl (by simp)

end Emits

namespace Build

/-- Copies are added behind the states that are there. -/
theorem addCopies_eq_ok {plan : BuildPlan} {rename : Nat → Nat} {first count : Nat} {u : Unit}
    {before after : Draft} (h : plan.addCopies rename first count before = .ok (u, after))
    (hfirst : first + count ≤ before.nodes.size) :
    before.Grows after ∧ after.nodes.size = before.nodes.size + count ∧
      after.counters = before.counters ∧ after.lookBehinds = before.lookBehinds ∧
      (∀ {context d}, before.Sound context d → after.Sound context d) ∧
      ∀ i < count, ∀ n, before.nodes[first + i]? = some n →
        after.nodes[before.nodes.size + i]? = some ⟨n.state.mapEpsilon rename, n.origin⟩ := by
  induction count generalizing first before with
  | zero =>
    obtain ⟨-, rfl⟩ := Build.pure_eq_ok.mp h
    exact ⟨.refl _, rfl, rfl, rfl, id, by simp⟩
  | succ count ih =>
    have hlt : first < before.nodes.size := by omega
    have hrun : (plan.add before.nodes[first].origin
        (before.nodes[first].state.mapEpsilon rename) >>= fun _ =>
          plan.addCopies rename (first + 1) count) before = .ok (u, after) := by
      have hget := Array.getElem?_eq_getElem hlt
      rw [BuildPlan.addCopies, Build.get_bind] at h
      simpa only [hget, Functor.discard, LawfulFunctor.map_const, Function.comp_apply,
        bind_map_left] using h
    obtain ⟨_, middle, hadd, hrest⟩ := Build.bind_eq_ok.mp hrun
    obtain ⟨-, rfl⟩ := Build.add_eq_ok hadd
    obtain ⟨hgrows, hsize, hcounters, hbehinds, hsound, hcopies⟩ :=
      ih hrest (by simp; omega)
    have hpush : ∀ {context d}, before.Sound context d → after.Sound context d := fun hs =>
      hsound (hs.push (NfaState.guardIn_mapEpsilon (hs.guards _ (Array.getElem_mem hlt))))
    refine ⟨(Draft.Grows.push before _).trans hgrows, ?_, hcounters, hbehinds, hpush, ?_⟩
    · rw [hsize, Array.size_push]
      omega
    · intro i hi n hn
      cases i with
      | zero =>
        rw [hgrows.nodes _ (by simp)]
        obtain ⟨_, rfl⟩ := Array.getElem?_eq_some_iff.mp hn
        simp
      | succ i =>
        have hcopy := hcopies i (by omega) n (by
          obtain ⟨hlt', -⟩ := Array.getElem?_eq_some_iff.mp hn
          rw [show first + 1 + i = first + (i + 1) by omega, Array.getElem?_push_lt hlt',
            ← Array.getElem?_eq_getElem hlt', hn])
        rw [Array.size_push] at hcopy
        rwa [show before.nodes.size + (i + 1) = before.nodes.size + 1 + i by omega]

end Build

theorem Draft.Grows.put {before after : Draft} (h : before.Grows after) {id : Nat}
    {state : NfaState} (hid : before.nodes.size ≤ id) :
    before.Grows { after with nodes := after.nodes.modify id ({ · with state := state }) } where
  size_le := by simpa using h.size_le
  nodes s hs := by
    have hne : id ≠ s := by omega
    simp only [Array.getElem?_modify, if_neg hne]
    exact h.nodes s hs
  lookBehinds := h.lookBehinds
  lookAheads := h.lookAheads
  counters := h.counters

/-- Replacing a state in front of a stretch does not touch the stretch. -/
theorem Nfa.Extends.of_put {nfa : Nfa} {draft : Draft} {id lo : Nat} {state : NfaState}
    (h : nfa.Extends { draft with
      nodes := draft.nodes.modify id ({ · with state := state }) } lo) (hid : id < lo) :
    nfa.Extends draft lo where
  nodes s hlo hs := by
    have hne : id ≠ s := by omega
    have hnode := h.nodes s hlo (by simpa using hs)
    simpa only [Array.getElem?_modify, if_neg hne] using hnode
  lookBehinds := h.lookBehinds
  lookAheads := h.lookAheads

theorem Nfa.Extends.state_of_put {nfa : Nfa} {draft : Draft} {id lo : Nat} {state : NfaState}
    (h : nfa.Extends { draft with
      nodes := draft.nodes.modify id ({ · with state := state }) } lo) (hlo : lo ≤ id)
    (hid : id < draft.nodes.size) : nfa.state id = state := by
  refine h.state hlo (n := ⟨state, draft.nodes[id].origin⟩) ?_
  rw [Array.getElem?_modify, if_pos rfl, Array.getElem?_eq_getElem hid]
  rfl

variable {context : Nat} {text : Text} {plan : BuildPlan} {origin next : Nat} {f g : Behavior}
  {n : Bool} {clear : Option (Nat × Nat)} {body : Nat → Build Nat}

/-- The copy of a state between `first` and `last`; the copies begin at `base`. -/
def copyOf (first last base dead next s : Nat) : Nat :=
  if first ≤ s ∧ s < last then s - first + base else if s = next then dead else s

theorem copyOf_exit {first last base dead next : Nat} (h : next < first) :
    copyOf first last base dead next next = dead := by
  rw [copyOf, if_neg (by omega), if_pos rfl]

/-- A draft in which the states from `lo` on have been copied. The end of the copy stands behind
them, and then come the copies. -/
structure Draft.Copied (before after : Draft) (lo origin : Nat) (rename : Nat → Nat) : Prop where
  grows : before.Grows after
  size : after.nodes.size = before.nodes.size + 1 + (before.nodes.size - lo)
  counters : after.counters = before.counters
  lookBehinds : after.lookBehinds = before.lookBehinds
  sound : ∀ {context d}, before.Sound context d → after.Sound context d
  inside : ∀ s, lo ≤ s → s < before.nodes.size → rename s = s - lo + (before.nodes.size + 1)
  outside : ∀ s < lo, rename s ≤ before.nodes.size
  dead : after.nodes[before.nodes.size]? = some ⟨.split [], origin⟩
  copy : ∀ s n, lo ≤ s → before.nodes[s]? = some n →
    after.nodes[rename s]? = some ⟨n.state.mapEpsilon rename, n.origin⟩

theorem Build.copied {before after : Draft} {lo : Nat} {u : Unit} (hlo : lo ≤ before.nodes.size)
    (h : plan.addCopies (copyOf lo before.nodes.size (before.nodes.size + 1) before.nodes.size next)
      lo (before.nodes.size - lo)
      { before with nodes := before.nodes.push ⟨.split [], origin⟩ } = .ok (u, after)) :
    before.Copied after lo origin
      (copyOf lo before.nodes.size (before.nodes.size + 1) before.nodes.size next) := by
  obtain ⟨hgrows, hsize, hcounters, hbehinds, hsound, hcopy⟩ :=
    Build.addCopies_eq_ok h (by simp; omega)
  simp only [Array.size_push] at hsize hcopy
  have hinside : ∀ s, lo ≤ s → s < before.nodes.size →
      copyOf lo before.nodes.size (before.nodes.size + 1) before.nodes.size next s =
        s - lo + (before.nodes.size + 1) := fun s hlo hhi => if_pos ⟨hlo, hhi⟩
  refine ⟨(Draft.Grows.push before _).trans hgrows, hsize, hcounters, hbehinds,
    fun hs => hsound (hs.push trivial), hinside, fun s hs => ?_, ?_, fun s n hs hn => ?_⟩
  · unfold copyOf
    split
    · omega
    · split <;> omega
  · rw [hgrows.nodes _ (by simp)]
    exact Array.getElem?_push_size
  · obtain ⟨hlt, -⟩ := Array.getElem?_eq_some_iff.mp hn
    have hcopied := hcopy (s - lo) (by omega) n (by
      rw [Nat.add_sub_cancel' hs, Array.getElem?_push_lt hlt, ← Array.getElem?_eq_getElem hlt, hn])
    rw [hinside s hs hlt]
    rwa [Nat.add_comm] at hcopied

namespace Draft.Copied

variable {before after : Draft} {lo : Nat} {rename : Nat → Nat}

/-- Behind a copied stretch there is nothing but its copy. -/
theorem eq_or_exists (h : before.Copied after lo origin rename) {s : Nat}
    (hs : before.nodes.size ≤ s) (hs' : s < after.nodes.size) :
    s = before.nodes.size ∨ ∃ t, lo ≤ t ∧ t < before.nodes.size ∧ s = rename t := by
  have hsize := h.size
  by_cases hdead : s = before.nodes.size
  · exact .inl hdead
  · refine .inr ⟨s - (before.nodes.size + 1) + lo, by omega, by omega, ?_⟩
    rw [h.inside _ (by omega) (by omega)]
    omega

theorem rename_lt (h : before.Copied after lo origin rename) {s : Nat} (hs : s < before.nodes.size) :
    rename s < after.nodes.size := by
  have hsize := h.size
  by_cases hlo : lo ≤ s
  · rw [h.inside s hlo hs]
    omega
  · have := h.outside s (by omega)
    omega

theorem state (h : before.Copied after lo origin rename) {nfa nfa' : Nfa}
    (hext : nfa.Extends before lo) (hext' : nfa'.Extends after lo) {s : Nat} (hs : lo ≤ s)
    (hs' : s < before.nodes.size) :
    nfa'.state (rename s) = (nfa.state s).mapEpsilon rename := by
  have hnode := Array.getElem?_eq_getElem hs'
  rw [hext.state hs hnode]
  refine hext'.state ?_ (h.copy s _ hs hnode)
  rw [h.inside s hs hs']
  omega

theorem copiedAt (h : before.Copied after lo origin rename) (hlo : lo ≤ before.nodes.size)
    (hexit : rename next = before.nodes.size) {nfa : Nfa} (hext : nfa.Extends after lo) :
    CopiedAt nfa lo before.nodes.size next before.nodes.size (before.nodes.size + 1) rename :=
  ⟨h.inside, hexit, hext.state hlo h.dead,
    fun _ hs hs' => h.state (hext.of_grows h.grows) hext hs hs'⟩

end Draft.Copied

/-- A fragment that has been copied, together with the end of the copy. -/
theorem Emitted.copy {d : Direction} {before middle after : Draft} {entry : Nat}
    {rename : Nat → Nat} (hf : Emitted context d text before middle [entry] next f n)
    (hcopied : middle.Copied after before.nodes.size origin rename)
    (hexit : rename next = middle.nodes.size) :
    Emitted context d text before after [rename entry] next (.moving text d f) false := by
  have hle := hf.grows.size_le
  have hsize := hcopied.size
  have hentry := hf.entries_in entry (by simp)
  refine ⟨hf.grows.trans hcopied.grows, fun hs => hcopied.sound (hf.sound hs), fun e he => ?_,
    fun nfa hd hext => ?_⟩
  · obtain rfl := List.mem_singleton.mp he
    rcases hentry with rfl | hentry
    · omega
    · rw [hcopied.inside entry hentry.1 hentry.2]
      omega
  · have hmoving := (hf.fragment nfa hd (hext.of_grows hcopied.grows)).moving
      (hcopied.copiedAt hle hexit hext) hle
    rw [hd] at hmoving
    rwa [hcopied.size, hcopied.counters]

/-- An iteration that has to move, with a copy of its states if it can match empty. -/
theorem Emits.movingIteration
    (hf : ∀ next, Emits context plan.direction text
      (plan.iteration origin clear body next) next f n)
    (hconsumes : n = false → f.Consumes text plan.direction) :
    Emits context plan.direction text (plan.movingIteration origin clear n body next) next
      (.moving text plan.direction f) false := by
  intro before e after hrun hnext
  rw [BuildPlan.movingIteration, Build.get_bind] at hrun
  obtain ⟨entry, middle, hbody, hrest⟩ := Build.bind_eq_ok.mp hrun
  have hf' := hf next _ _ _ hbody hnext
  cases n with
  | false =>
    obtain ⟨rfl, rfl⟩ := Build.pure_eq_ok.mp hrest
    exact hf'.congr (Behavior.moving_of_consumes (hconsumes rfl)).symm rfl
  | true =>
    simp only [Bool.not_true, Bool.false_eq_true, if_false, Build.get_bind] at hrest
    obtain ⟨dead, split, hadd, hrest⟩ := Build.bind_eq_ok.mp hrest
    obtain ⟨rfl, rfl⟩ := Build.add_eq_ok hadd
    rw [Build.get_bind] at hrest
    obtain ⟨_, copied, hcopies, hpure⟩ := Build.bind_eq_ok.mp hrest
    obtain ⟨rfl, rfl⟩ := Build.pure_eq_ok.mp hpure
    simp only [Array.size_push] at hcopies ⊢
    exact hf'.copy (Build.copied hf'.grows.size_le hcopies) (copyOf_exit hnext)

end UnitRegex
