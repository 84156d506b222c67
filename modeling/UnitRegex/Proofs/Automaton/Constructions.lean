import Mathlib.Data.List.Perm.Subperm
import UnitRegex.Proofs.Automaton.Confined
import UnitRegex.Proofs.Pattern.Outline

/-!
What a construction comes to. Units are tested against the sets of the pattern, against those of its
line starts, and where units are skipped against all units. There are no more bodies than states,
and no more than the pattern has.
-/

namespace UnitRegex

/-- A state tests units against sets of one kind only. -/
def NfaState.Tests (kind : CharSet → Prop) : NfaState → Prop
  | unit set _ => kind set
  | _ => True

theorem NfaState.Tests.mapEpsilon {kind : CharSet → Prop} {s : NfaState} (h : s.Tests kind)
    (f : Nat → Nat) : (s.mapEpsilon f).Tests kind := by
  cases s with
  | unit set next => exact h
  | _ => trivial

/-- A draft tests units against sets of one kind only. -/
structure Draft.Tests (kind : CharSet → Prop) (draft : Draft) : Prop where
  states : ∀ n ∈ draft.nodes, n.state.Tests kind
  lookBehinds : ∀ body ∈ draft.lookBehinds, ∀ set ∈ body, kind set
  lookAheads : ∀ branches ∈ draft.lookAheads, ∀ body ∈ branches, ∀ set ∈ body, kind set

/-- An automaton tests units against sets of one kind only. -/
structure Nfa.Tests (kind : CharSet → Prop) (nfa : Nfa) : Prop where
  states : ∀ s, (nfa.state s).Tests kind
  lookBehinds : ∀ body ∈ nfa.lookBehinds, ∀ set ∈ body, kind set
  lookAheads : ∀ branches ∈ nfa.lookAheads, ∀ body ∈ branches, ∀ set ∈ body, kind set

/-! ### Properties that a construction keeps -/

section

variable {α : Type} [Ord α] [Std.TransOrd α] [Std.LawfulEqOrd α] {a : α} {b : Bodies α}

theorem Bodies.forall_mem_add {P : α → Prop} (hb : ∀ x ∈ b.toList, P x) (ha : P a) :
    ∀ x ∈ (b.add a).2.toList, P x := by
  intro x hx
  rcases (b.add_spec a).2.2 x hx with hx | rfl
  · exact hb x hx
  · exact ha

theorem Bodies.length_add_le (a : α) (b : Bodies α) :
    (b.add a).2.toList.length ≤ b.toList.length + 1 := by
  rcases b.toList_add a with ⟨-, h⟩ | ⟨-, h⟩ <;> rw [h] <;> simp

theorem Bodies.nodup_add (hb : b.toList.Nodup) : (b.add a).2.toList.Nodup := by
  rcases b.toList_add a with ⟨-, h⟩ | ⟨hnew, h⟩
  · rwa [h]
  · rw [h]
    refine List.nodup_append.mpr ⟨hb, List.pairwise_singleton _ a, fun x hx c hc hxc => ?_⟩
    exact hnew (List.mem_singleton.mp hc ▸ hxc ▸ hx)

end

theorem forall_mem_push {α : Type} {a : α} {P : α → Prop} {xs : Array α} (hxs : ∀ b ∈ xs, P b) (ha : P a) :
    ∀ b ∈ xs.push a, P b := by
  intro b hb
  rcases Array.mem_push.mp hb with hb | rfl
  · exact hxs b hb
  · exact ha

namespace Draft.Invariant

/-- The sets that units are tested against are of one kind. -/
def tests (limit : Nat) (kind : CharSet → Prop) : Draft.Invariant limit where
  Holds := Draft.Tests kind
  Allows := NfaState.Tests kind
  AllowsBehind body := ∀ set ∈ body, kind set
  AllowsAhead branches := ∀ body ∈ branches, ∀ set ∈ body, kind set
  allows_of_free {s} h := by
    cases s with
    | unit set next => cases h
    | _ => trivial
  allows_of_mem h := h.states
  mapEpsilon h f := h.mapEpsilon f
  push h _ hn := ⟨forall_mem_push h.states hn, h.lookBehinds, h.lookAheads⟩
  put h hstate id := by
    refine ⟨?_, h.lookBehinds, h.lookAheads⟩
    intro n hn
    obtain ⟨i, hi⟩ := Array.mem_iff_getElem?.mp hn
    rw [Array.getElem?_modify] at hi
    split at hi
    · obtain ⟨n', -, rfl⟩ := Option.map_eq_some_iff.mp hi
      exact hstate
    · exact h.states n (Array.mem_of_getElem? hi)
  newCounter h := ⟨h.states, h.lookBehinds, h.lookAheads⟩
  pushBehind h _ hn hbody :=
    ⟨forall_mem_push h.states hn, Bodies.forall_mem_add h.lookBehinds hbody, h.lookAheads⟩
  pushAhead h _ hn hbranches :=
    ⟨forall_mem_push h.states hn, h.lookBehinds, Bodies.forall_mem_add h.lookAheads hbranches⟩

/-- One more state makes up for one more body. -/
theorem size_push_le {limit : Nat} {draft after : Draft} {n : LabeledState}
    (h : draft.lookBehinds.length + draft.lookAheads.length ≤ draft.nodes.size ∧
      draft.nodes.size ≤ limit) (hroom : draft.nodes.size < limit)
    (hnodes : after.nodes = draft.nodes.push n)
    (hbodies : after.lookBehinds.length + after.lookAheads.length ≤
      draft.lookBehinds.length + draft.lookAheads.length + 1) :
    after.lookBehinds.length + after.lookAheads.length ≤ after.nodes.size ∧
      after.nodes.size ≤ limit := by
  rw [hnodes, Array.size_push]
  omega

/-- There are no more bodies than states, of which there are no more than the limit. -/
def sized (limit : Nat) : Draft.Invariant limit where
  Holds draft := draft.lookBehinds.length + draft.lookAheads.length ≤ draft.nodes.size ∧
    draft.nodes.size ≤ limit
  Allows _ := True
  AllowsBehind _ := True
  AllowsAhead _ := True
  allows_of_free _ := trivial
  allows_of_mem _ _ _ := trivial
  mapEpsilon _ _ := trivial
  push h hroom _ := size_push_le h hroom rfl (Nat.le_succ _)
  put h _ id := by
    simp only [Array.size_modify]
    exact h
  newCounter h := h
  pushBehind h hroom _ _ := size_push_le h hroom rfl
    (Nat.le_trans (Nat.add_le_add_right (Bodies.length_add_le _ _) _)
      (Nat.le_of_eq (Nat.add_right_comm _ 1 _)))
  pushAhead h hroom _ _ := size_push_le h hroom rfl
    (Nat.add_le_add_left (Bodies.length_add_le _ _) _)

/-- No body stands in a table twice. -/
def distinct (limit : Nat) : Draft.Invariant limit where
  Holds draft := draft.lookBehinds.Nodup ∧ draft.lookAheads.Nodup
  Allows _ := True
  AllowsBehind _ := True
  AllowsAhead _ := True
  allows_of_free _ := trivial
  allows_of_mem _ _ _ := trivial
  mapEpsilon _ _ := trivial
  push h _ _ := h
  put h _ _ := h
  newCounter h := h
  pushBehind h _ _ _ := ⟨Bodies.nodup_add h.1, h.2⟩
  pushAhead h _ _ _ := ⟨h.1, Bodies.nodup_add h.2⟩

/-- The bodies are different ones of some lists. -/
def among (limit : Nat) (behinds : List (List CharSet)) (aheads : List (List (List CharSet))) :
    Draft.Invariant limit where
  Holds draft := (draft.lookBehinds.Nodup ∧ draft.lookBehinds ⊆ behinds) ∧
    draft.lookAheads.Nodup ∧ draft.lookAheads ⊆ aheads
  Allows _ := True
  AllowsBehind body := body ∈ behinds
  AllowsAhead branches := branches ∈ aheads
  allows_of_free _ := trivial
  allows_of_mem _ _ _ := trivial
  mapEpsilon _ _ := trivial
  push h _ _ := h
  put h _ _ := h
  newCounter h := h
  pushBehind h _ _ hbody :=
    ⟨⟨Bodies.nodup_add h.1.1, Bodies.forall_mem_add (fun _ => (h.1.2 ·)) hbody⟩, h.2⟩
  pushAhead h _ _ hbranches :=
    ⟨h.1, Bodies.nodup_add h.2.1, Bodies.forall_mem_add (fun _ => (h.2.2 ·)) hbranches⟩

/-- An invariant that allows everything admits all parts. -/
theorem admits_of_allows {limit : Nat} {inv : Draft.Invariant limit} (hstate : ∀ s, inv.Allows s)
    (hbehind : ∀ body, inv.AllowsBehind body) (hahead : ∀ branches, inv.AllowsAhead branches)
    (x : Term) : inv.Admits x := by
  unfold Admits
  split
  · exact fun _ => hstate _
  · exact hbehind _
  · exact fun sets _ => hbehind sets
  · exact fun branches _ => hahead branches
  all_goals trivial

end Draft.Invariant

/-! ### The sets of a plain body -/

mutual

/-- A plain sequence consists of leaves of its term. -/
theorem Term.unit_mem_leaves_of_plain? (t : Term) {sets : List CharSet} (h : t.plain? = some sets) :
    ∀ set ∈ sets, .unit set ∈ t.leaves := by
  match t with
  | .unit set =>
    obtain rfl := Option.some.inj h
    simp [Term.leaves]
  | .group none none body =>
    rw [Term.plain?] at h
    cases hbody : body.plain? with
    | none => simp [hbody] at h
    | some rows =>
      rw [hbody] at h
      split at h
      · rename_i only hrows
        obtain rfl := Option.some.inj hrows
        obtain rfl := Option.some.inj h
        exact body.unit_mem_leaves_of_plain? hbody _ List.mem_cons_self
      · cases h

theorem Branch.unit_mem_leaves_of_plain? (b : Branch) {sets : List CharSet}
    (h : b.plain? = some sets) : ∀ set ∈ sets, .unit set ∈ b.leaves := by
  match b with
  | .nil =>
    obtain rfl := Option.some.inj h
    simp
  | .cons t rest =>
    rw [Branch.plain?] at h
    split at h
    · rename_i front back hfront hback
      obtain rfl := Option.some.inj h
      intro set hset
      rw [Branch.leaves, List.mem_append]
      rcases List.mem_append.mp hset with hset | hset
      · exact .inl (t.unit_mem_leaves_of_plain? hfront set hset)
      · exact .inr (rest.unit_mem_leaves_of_plain? hback set hset)
    · cases h

theorem Choice.unit_mem_leaves_of_plain? (c : Choice) {rows : List (List CharSet)}
    (h : c.plain? = some rows) : ∀ sets ∈ rows, ∀ set ∈ sets, .unit set ∈ c.leaves := by
  match c with
  | .one b =>
    obtain ⟨only, honly, rfl⟩ := Option.map_eq_some_iff.mp h
    intro sets hsets
    obtain rfl := List.mem_singleton.mp hsets
    exact b.unit_mem_leaves_of_plain? honly
  | .more b rest =>
    rw [Choice.plain?] at h
    split at h
    · rename_i first more hfirst hmore
      obtain rfl := Option.some.inj h
      intro sets hsets set hset
      rw [Choice.leaves, List.mem_append]
      rcases List.mem_cons.mp hsets with rfl | hsets
      · exact .inl (b.unit_mem_leaves_of_plain? hfirst set hset)
      · exact .inr (rest.unit_mem_leaves_of_plain? hmore sets hsets set hset)
    · cases h

end


mutual

theorem Term.mem_leaves_of_mem_parts (t : Term) {x : Term} (hx : x ∈ t.parts) :
    ∀ leaf ∈ x.leaves, leaf ∈ t.leaves := by
  match t with
  | .unit _ | .anchor _ | .look _ _ _ | .backReference _ =>
    obtain rfl := List.mem_singleton.mp hx
    exact fun _ => id
  | .group _ _ body => exact body.mem_leaves_of_mem_parts hx

theorem Branch.mem_leaves_of_mem_parts (b : Branch) {x : Term} (hx : x ∈ b.parts) :
    ∀ leaf ∈ x.leaves, leaf ∈ b.leaves := by
  match b with
  | .nil => cases hx
  | .cons t rest =>
    intro leaf hleaf
    rw [Branch.leaves, List.mem_append]
    rcases List.mem_append.mp hx with hx | hx
    · exact .inl (t.mem_leaves_of_mem_parts hx leaf hleaf)
    · exact .inr (rest.mem_leaves_of_mem_parts hx leaf hleaf)

theorem Choice.mem_leaves_of_mem_parts (c : Choice) {x : Term} (hx : x ∈ c.parts) :
    ∀ leaf ∈ x.leaves, leaf ∈ c.leaves := by
  match c with
  | .one b => exact b.mem_leaves_of_mem_parts hx
  | .more b rest =>
    intro leaf hleaf
    rw [Choice.leaves, List.mem_append]
    rcases List.mem_append.mp hx with hx | hx
    · exact .inl (b.mem_leaves_of_mem_parts hx leaf hleaf)
    · exact .inr (rest.mem_leaves_of_mem_parts hx leaf hleaf)

end

/-- The sets of a part are among the leaves of its term. -/
theorem Draft.Invariant.admits_tests {kind : CharSet → Prop}
    (hline : kind CharSet.lineTerminators.complement) {limit : Nat} {x : Term}
    (hx : ∀ set, .unit set ∈ x.leaves → kind set) : (tests limit kind).Admits x := by
  match x with
  | .unit set => exact fun _ => hx set List.mem_cons_self
  | .anchor .caret => exact fun set hset => List.mem_singleton.mp hset ▸ hline
  | .look true negated body =>
    intro sets hsole set hset
    unfold Choice.soleSequence? at hsole
    split at hsole
    · rename_i only hplain
      obtain rfl := Option.some.inj hsole
      exact hx set (body.unit_mem_leaves_of_plain? hplain _ List.mem_cons_self set hset)
    · cases hsole
  | .look false negated body =>
    intro branches hplain sets hsets set hset
    exact hx set (body.unit_mem_leaves_of_plain? hplain sets hsets set hset)
  | .anchor .dollar | .anchor .wordBoundary | .anchor .notWordBoundary | .backReference _
  | .group _ _ _ => trivial

namespace Nfa

variable {p : NumberedPattern} {config : Config} {direction : Direction}

/-- What a build gives: an automaton that tests units against the sets of the pattern and of its
line starts, or a refusal for a limit. -/
theorem build_spec (kind : CharSet → Prop) (hfull : kind .full)
    (hline : kind CharSet.lineTerminators.complement)
    (hp : ∀ set, .unit set ∈ p.body.leaves → kind set) (hnumbered : p.numbered = true) :
    (∀ nfa, Nfa.build p config direction = .ok nfa → nfa.Tests kind) ∧
      ∀ r, Nfa.build p config direction = .error r → r.IsLimit := by
  let inv : Draft.Invariant config.maxAutomatonStates := .tests _ kind
  have hparts (x : Term) (hx : x ∈ p.body.parts) : inv.Admits x :=
    Draft.Invariant.admits_tests hline fun set hset =>
      hp set (p.body.mem_leaves_of_mem_parts hx _ hset)
  have hempty : inv.Holds {} := by constructor <;> simp [Draft.lookBehinds, Draft.lookAheads]
  obtain ⟨hok, herror⟩ := build_keeps inv hempty (fun _ => hfull) hparts direction hnumbered
  refine ⟨fun nfa hnfa => ?_, herror⟩
  obtain ⟨draft, hdraft, hnodes, hbehind, hahead⟩ := hok nfa hnfa
  refine ⟨?_, hbehind ▸ hdraft.lookBehinds, hahead ▸ hdraft.lookAheads⟩
  intro s
  rw [Nfa.state, hnodes]
  split
  · rename_i n hn
    exact hdraft.states n (Array.mem_of_getElem? hn)
  · trivial

/-- An automaton of a numbered pattern is refused for a limit only. -/
theorem isLimit_of_build {p : Pattern} {r : Refusal}
    (h : Nfa.build ⟨p, true⟩ config direction = .error r) : r.IsLimit :=
  (build_spec (fun _ => True) trivial trivial (fun _ _ => trivial) rfl).2 r h

/-- An automaton has no more bodies than states, and no more states than it may have. -/
theorem length_bodies_le {p : Pattern} {nfa : Nfa}
    (h : Nfa.build ⟨p, true⟩ config direction = .ok nfa) :
    nfa.lookBehinds.length + nfa.lookAheads.length ≤ config.maxAutomatonStates := by
  let inv : Draft.Invariant config.maxAutomatonStates := .sized _
  have hempty : inv.Holds {} := ⟨Nat.le_refl _, Nat.zero_le _⟩
  obtain ⟨draft, ⟨hlength, hsize⟩, -, hbehind, hahead⟩ :=
    (build_keeps inv hempty (fun _ => trivial) (fun x _ => Draft.Invariant.admits_of_allows
      (fun _ => trivial) (fun _ => trivial) (fun _ => trivial) x) direction rfl).1 nfa h
  rw [hbehind, hahead]
  exact Nat.le_trans hlength hsize

/-- The tables of bodies have no entry twice. -/
theorem nodup_bodies {p : Pattern} {nfa : Nfa}
    (h : Nfa.build ⟨p, true⟩ config direction = .ok nfa) :
    nfa.lookBehinds.Nodup ∧ nfa.lookAheads.Nodup := by
  let inv : Draft.Invariant config.maxAutomatonStates := .distinct _
  have hempty : inv.Holds {} := ⟨List.nodup_nil, List.nodup_nil⟩
  obtain ⟨draft, hdraft, -, hbehind, hahead⟩ :=
    (build_keeps inv hempty (fun _ => trivial) (fun x _ => Draft.Invariant.admits_of_allows
      (fun _ => trivial) (fun _ => trivial) (fun _ => trivial) x) direction rfl).1 nfa h
  rw [hbehind, hahead]
  exact hdraft

/-- An automaton has no more bodies than the parts of its pattern can add. -/
theorem length_bodies_le_of_among {p : Pattern} {nfa : Nfa} {behinds : List (List CharSet)}
    {aheads : List (List (List CharSet))}
    (hp : ∀ x ∈ p.body.parts,
      (Draft.Invariant.among config.maxAutomatonStates behinds aheads).Admits x)
    (h : Nfa.build ⟨p, true⟩ config direction = .ok nfa) :
    nfa.lookBehinds.length ≤ behinds.length ∧ nfa.lookAheads.length ≤ aheads.length := by
  let inv : Draft.Invariant config.maxAutomatonStates := .among _ behinds aheads
  have hempty : inv.Holds {} :=
    ⟨⟨List.nodup_nil, List.nil_subset _⟩, List.nodup_nil, List.nil_subset _⟩
  obtain ⟨draft, ⟨⟨hnodup, hsub⟩, hnodup', hsub'⟩, -, hbehind, hahead⟩ :=
    (build_keeps inv hempty (fun _ => trivial) hp direction rfl).1 nfa h
  rw [hbehind, hahead]
  exact ⟨(hnodup.subperm hsub).length_le, (hnodup'.subperm hsub').length_le⟩

end Nfa

end UnitRegex
