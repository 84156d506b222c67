import Mathlib.Logic.Relation
import UnitRegex.Proofs.Automaton.Drafts
import UnitRegex.Proofs.Automaton.Entries
import UnitRegex.Proofs.Automaton.Invariance
import UnitRegex.Proofs.Search.Explored
import UnitRegex.Proofs.Table.LookingBack
import UnitRegex.Table.ForwardSubset

/-!
Places at one position. A place stands for the end that a depth-first search from it finds, provided
that the look-aheads it left open hold and that the input ends where it has to, and the places one
step further stand for the same end.
-/

namespace UnitRegex

namespace Nfa

variable {nfa : Nfa} (h : nfa.Grounded) (text : Text)

/-- The end that a depth-first search finds from a state and its counters. -/
noncomputable def stopFrom (cursor : Nat) (a : Nat × List Nat) : Option Nat :=
  (nfa.first h text text.size ⟨cursor, ⟨a.1, a.2, #[]⟩⟩).map Configuration.cursor

variable {text}

theorem stopFrom_of_thread (cursor : Nat) (t : Thread) :
    (nfa.first h text text.size ⟨cursor, t⟩).map Configuration.cursor =
      nfa.stopFrom h text cursor (t.state, t.counts) := by
  have hbare : nfa.first h text text.size (Configuration.bare ⟨cursor, t⟩) = _ := first_bare h _
  have hcursor := congrArg (Option.map Configuration.cursor) hbare
  rw [Option.map_map] at hcursor
  exact hcursor.symm

theorem stopFrom_of_accept {cursor : Nat} {a : Nat × List Nat} (ha : nfa.state a.1 = .accept) :
    nfa.stopFrom h text cursor a = some cursor := by
  rw [stopFrom, first_of_accept (x := ⟨cursor, ⟨a.1, a.2, #[]⟩⟩) h ha]
  rfl

theorem stopFrom_of_unit (hd : nfa.direction = .forward) {cursor next : Nat}
    {a : Nat × List Nat} {set : CharSet} (ha : nfa.state a.1 = .unit set next) :
    nfa.stopFrom h text cursor a =
      if text[cursor]?.any (set.contains ·) then
        nfa.stopFrom h text (cursor + 1) (next, a.2)
      else none := by
  have ht : nfa.state (⟨a.1, a.2, #[]⟩ : Thread).state = .unit set next := ha
  rw [stopFrom, first_of_unit h hd ht, Text.lt_size_and_any]
  split <;> rfl

theorem stopFrom_of_steps {cursor : Nat} {a : Nat × List Nat}
    (hunit : ∀ set next, nfa.state a.1 ≠ .unit set next) (haccept : nfa.state a.1 ≠ .accept)
    (t : Thread) (ht : (t.state, t.counts) = a) :
    nfa.stopFrom h text cursor a = (t.successors nfa text cursor).findSome? fun u =>
      nfa.stopFrom h text cursor (u.state, u.counts) := by
  subst ht
  rw [← stopFrom_of_thread h cursor t, first_of_not_unit h hunit haccept, List.map_findSome?]
  congr 1
  funext u
  exact stopFrom_of_thread h cursor u

/-- Guards can be decided at a position, unless a state is an entry that still skips units. -/
def Ready (nfa : Nfa) (start cursor s : Nat) : Prop :=
  start ≤ cursor ∨ ∃ target count, nfa.Skips target (count + 1) s ∧ cursor + (count + 1) = start

theorem Ready.of_not_unit {start cursor s : Nat} (hready : nfa.Ready start cursor s)
    (hunit : ∀ set next, nfa.state s ≠ .unit set next) : start ≤ cursor := by
  rcases hready with hle | ⟨target, count, hskips, -⟩
  · exact hle
  · cases hskips with
    | skip hs _ => exact absurd hs (hunit _ _)

/-- A step to a state that may come next, from one that is reached where the input starts or behind
it. Only at the start a caret is passed. -/
inductive Proceeds (nfa : Nfa) : Bool × Nat → Bool × Nat → Prop
  | read {atStart : Bool} {s next : Nat} {set : CharSet} (h : nfa.state s = .unit set next) :
    Proceeds nfa (atStart, s) (false, next)
  | pass {atStart : Bool} {s t : Nat} (hunit : ∀ set next, nfa.state s ≠ .unit set next)
    (hcaret : ∀ next, nfa.state s = .assert .caret next → atStart = true)
    (ht : t ∈ nfa.successors s) : Proceeds nfa (atStart, s) (atStart, t)

/-- All look-aheads that may be passed on the way on from a state have numbers of 16 bits. -/
def LooksFit (nfa : Nfa) (atStart : Bool) (s : Nat) : Prop :=
  ∀ x, Relation.ReflTransGen nfa.Proceeds (atStart, s) x →
    ∀ body negated next, nfa.state x.2 = .assert (.ahead body negated) next → body < 65536

section

variable {atStart atStart' : Bool} {s t : Nat}

theorem Proceeds.eq_of_unit {set : CharSet} {next : Nat} (hs : nfa.state s = .unit set next)
    (h : nfa.Proceeds (atStart, s) (atStart', t)) : atStart' = false ∧ t = next := by
  cases h with
  | read hs' =>
    obtain ⟨-, rfl⟩ := NfaState.unit.inj (hs.symm.trans hs')
    exact ⟨rfl, rfl⟩
  | pass hunit => exact absurd hs (hunit _ _)

theorem Proceeds.mem_of_split {targets : List Nat} (hs : nfa.state s = .split targets)
    (h : nfa.Proceeds (atStart, s) (atStart', t)) : t ∈ targets := by
  cases h with
  | read hs' => simp [hs] at hs'
  | pass _ _ ht => simpa [successors, hs, NfaState.successors] using ht

theorem LooksFit.lt (h : nfa.LooksFit atStart s) {body next : Nat} {negated : Bool}
    (hs : nfa.state s = .assert (.ahead body negated) next) : body < 65536 :=
  h _ .refl body negated next hs

theorem LooksFit.step (h : nfa.LooksFit atStart s)
    (hstep : nfa.Proceeds (atStart, s) (atStart', t)) : nfa.LooksFit atStart' t :=
  fun x hx => h x (.head hstep hx)

theorem looksFit_of_steps
    (hlt : ∀ body negated next, nfa.state s = .assert (.ahead body negated) next → body < 65536)
    (hsteps : ∀ b t, nfa.Proceeds (atStart, s) (b, t) → nfa.LooksFit b t) :
    nfa.LooksFit atStart s := by
  intro x hx
  rcases Relation.ReflTransGen.cases_head hx with rfl | ⟨⟨b, t⟩, hstep, hrest⟩
  · exact hlt
  · exact hsteps b t hstep x hrest

theorem looksFit_of_guards
    (hguards : ∀ s, (nfa.state s).GuardIn nfa.direction nfa.lookAheads.length)
    (hfew : nfa.lookAheads.length ≤ 65536) (atStart : Bool) (s : Nat) : nfa.LooksFit atStart s := by
  intro x _ body negated next hs
  have hguard := hguards x.2
  rw [hs] at hguard
  exact Nat.lt_of_lt_of_le hguard.2 hfew

end

/-- What the construction of the table relies on. -/
structure Trackable (nfa : Nfa) : Prop where
  grounded : nfa.Grounded
  direction : nfa.direction = .forward
  numberable : Progress.Numberable nfa
  fewBranches : OpenLook.FewBranches nfa
  context : ∀ sets ∈ nfa.lookBehinds, sets.length ≤ nfa.context
  looksFit : ∀ s ∈ nfa.anchored ++ nfa.unanchored, ∀ atStart, nfa.LooksFit atStart s

/-- What is known of the text at a position where places are explored. -/
structure Located (nfa : Nfa) (text : Text) (floor start cursor : Nat) (progress : Progress)
    (atStart : Bool) : Prop where
  tracks : progress.Tracks nfa text floor cursor
  far : floor = 0 ∨ floor + nfa.context = start
  atStart : start ≤ cursor → (atStart = true ↔ cursor = 0)

end Nfa

namespace ForwardPlace

/-- What a place still has to see is undecided, and nothing is behind the end of the input. -/
structure Undecided (nfa : Nfa) (d : Nat) (p : ForwardPlace) : Prop where
  looks : ∀ q ∈ p.looks, q.Undecided nfa d
  dollar : p.dollar = true → p.looks = []

/-- A place from where all that is passed can be told by its number. -/
structure Sound (nfa : Nfa) (atStart : Bool) (d : Nat) (p : ForwardPlace) : Prop
    extends Undecided nfa d p where
  looksFit : nfa.LooksFit atStart p.state

/-- What a place still has to see can be seen at a position. -/
def possible (nfa : Nfa) (text : Text) (cursor : Nat) (p : ForwardPlace) : Bool :=
  OpenLook.allHold nfa text cursor p.looks && (!p.dollar || cursor == text.size)

variable {nfa : Nfa} (h : nfa.Grounded) (text : Text)

/-- The end of what a place finds. -/
noncomputable def stop? (cursor : Nat) (p : ForwardPlace) : Option Nat :=
  if p.possible nfa text cursor then nfa.stopFrom h text cursor (p.state, p.counts) else none

variable {text} {progress : Progress} {atStart : Bool} {floor start cursor d : Nat}

/-- Going on at another state asks for the same. -/
theorem findSome?_stop?_map (p : ForwardPlace) (l : List (Nat × List Nat)) :
    (l.map fun b => { p with state := b.1, counts := b.2 }).findSome? (stop? h text cursor) =
      if p.possible nfa text cursor then l.findSome? (nfa.stopFrom h text cursor) else none := by
  rw [List.findSome?_map]
  by_cases hp : p.possible nfa text cursor = true
  · rw [if_pos hp]
    congr 1
    funext b
    exact if_pos hp
  · rw [if_neg hp, List.findSome?_eq_none_iff]
    intro b _
    exact if_neg hp

theorem pass?_caret (hlocated : nfa.Located text floor start cursor progress atStart)
    (hstart : start ≤ cursor) : nfa.holds text cursor .caret = atStart := by
  have := hlocated.atStart hstart
  rw [Bool.eq_iff_iff, this]
  simp [Nfa.holds]

theorem allHold_size {looks : List OpenLook} (hlooks : ∀ q ∈ looks, q.Undecided nfa d) :
    OpenLook.allHold nfa text text.size looks = looks.all (·.negated) := by
  rw [OpenLook.allHold, Bool.eq_iff_iff, List.all_eq_true, List.all_eq_true]
  refine forall₂_congr fun q hq => ?_
  rw [OpenLook.holds_size (hlooks q hq)]

theorem undecided_of_pass? (hfew : OpenLook.FewBranches nfa) {p q : ForwardPlace}
    (hp : p.Undecided nfa d) {guard : Guard}
    (hbody : ∀ body negated, guard = .ahead body negated → body < 65536)
    (h : p.pass? nfa progress atStart guard = some q) : q.Undecided nfa d := by
  cases guard with
  | caret =>
    obtain ⟨-, hq⟩ := Option.ite_none_right_eq_some.mp h
    obtain rfl := Option.some.inj hq
    exact hp
  | dollar =>
    obtain ⟨-, hq⟩ := Option.ite_none_right_eq_some.mp h
    obtain rfl := Option.some.inj hq
    exact ⟨by simp, fun _ => rfl⟩
  | behind body negated =>
    obtain ⟨-, hq⟩ := Option.ite_none_right_eq_some.mp h
    obtain rfl := Option.some.inj hq
    exact hp
  | ahead body negated =>
    have hbody := hbody body negated rfl
    rw [pass?] at h
    cases hverdict : OpenLook.start nfa body negated p.dollar with
    | holds =>
      rw [hverdict] at h
      obtain rfl := Option.some.inj h
      exact hp
    | fails =>
      rw [hverdict] at h
      simp at h
    | undecided look =>
      rw [hverdict] at h
      obtain rfl := Option.some.inj h
      -- Being undecided does not depend on the text, so the empty one will do.
      have hatEnd : p.dollar = true → 0 = (#[] : Text).size := fun _ => rfl
      have htells := OpenLook.start_tells (d := d) (hfew _) hbody negated hatEnd
      rw [hverdict] at htells
      refine ⟨fun a ha => ?_, fun hd => ?_⟩
      · rcases OpenLook.mem_insertInto.mp ha with rfl | ha
        · exact htells.1
        · exact hp.looks a ha
      · simp only at hd
        rw [hd] at hverdict
        exact absurd hverdict (OpenLook.start_ne_undecided _ _ _ _)

theorem pass?_ahead_possible (hfew : OpenLook.FewBranches nfa) {p : ForwardPlace} {body : Nat}
    (hbody : body < 65536) (negated : Bool) :
    (p.pass? nfa progress atStart (.ahead body negated)).any (possible nfa text cursor) =
      (p.possible nfa text cursor && nfa.holds text cursor (.ahead body negated)) := by
  rw [pass?]
  by_cases hpossible : p.dollar = true → cursor = text.size
  · have htells := OpenLook.start_tells (d := 0) (hfew _) hbody negated hpossible
    cases hverdict : OpenLook.start nfa body negated p.dollar with
    | holds =>
      rw [hverdict] at htells
      rw [show nfa.holds text cursor (.ahead body negated) = true from htells]
      simp
    | fails =>
      rw [hverdict] at htells
      rw [show nfa.holds text cursor (.ahead body negated) = false from htells]
      simp
    | undecided look =>
      rw [hverdict] at htells
      simp only [Option.any_some, possible, OpenLook.allHold_insertInto, htells.2]
      rw [Bool.and_assoc, Bool.and_comm]
  · -- The end of the input was asserted where it is not.
    obtain ⟨hdollar, hend⟩ : p.dollar = true ∧ cursor ≠ text.size := by simpa using hpossible
    have himpossible : p.possible nfa text cursor = false := by simp [possible, hdollar, hend]
    rw [himpossible, hdollar]
    cases hverdict : OpenLook.start nfa body negated true with
    | holds => simp [himpossible]
    | fails => simp
    | undecided look => exact absurd hverdict (OpenLook.start_ne_undecided _ _ _ _)

theorem pass?_dollar_possible {p : ForwardPlace} (hp : p.Undecided nfa d) :
    (p.pass? nfa progress atStart .dollar).any (possible nfa text cursor) =
      (p.possible nfa text cursor && nfa.holds text cursor .dollar) := by
  have hholds : nfa.holds text cursor .dollar = (cursor == text.size) := rfl
  rw [pass?, hholds]
  by_cases hend : cursor = text.size
  · subst hend
    have hall : OpenLook.allHold nfa text text.size p.looks = _ := allHold_size hp.looks
    split
    · rename_i hneg
      rw [Option.any_some, possible, possible, hall, hneg]
      simp [OpenLook.allHold]
    · rename_i hneg
      simp [possible, hall, hneg]
  · have hfalse : (cursor == text.size) = false := by simpa using hend
    split
    · simp only [Option.any_some, possible, hfalse, Bool.not_true, Bool.or_self, Bool.and_false]
    · simp [hend]

/-- A place behind a guard is possible if the guard holds. -/
theorem pass?_possible (ht : nfa.Trackable) (hlocated : nfa.Located text floor start cursor progress
    atStart) (hstart : start ≤ cursor) {p : ForwardPlace} (hp : p.Undecided nfa d) {guard : Guard}
    (hbody : ∀ body negated, guard = .ahead body negated → body < 65536) :
    (p.pass? nfa progress atStart guard).any (possible nfa text cursor) =
      (p.possible nfa text cursor && nfa.holds text cursor guard) := by
  cases guard with
  | caret =>
    rw [pass?_caret hlocated hstart, pass?]
    cases atStart <;> simp
  | dollar => exact pass?_dollar_possible hp
  | behind body negated =>
    rw [Progress.holds_behind hlocated.tracks ht.context (hlocated.far.imp id fun h => by omega),
      pass?]
    split
    · rename_i hcomplete
      simp [hcomplete]
    · rename_i hcomplete
      simp [hcomplete]
  | ahead body negated => exact pass?_ahead_possible ht.fewBranches (hbody body negated rfl) negated

theorem proceeds_of_mem_successors {p q : ForwardPlace}
    (h : q ∈ p.successors nfa progress atStart) :
    nfa.Proceeds (atStart, p.state) (atStart, q.state) := by
  have hnext := Nfa.state_mem_successors (mem_epsilon_of_mem_successors h)
  refine .pass (fun set next hs => ?_) (fun next hs => ?_) hnext
  · simp [successors, hs] at h
  · cases atStart with
    | true => rfl
    | false => simp [successors, hs, pass?] at h

theorem undecided_of_mem_successors (hfew : OpenLook.FewBranches nfa) {p q : ForwardPlace}
    (hp : p.Sound nfa atStart d) (h : q ∈ p.successors nfa progress atStart) :
    q.Undecided nfa d := by
  rcases (nfa.state p.state).assert_or with ⟨guard, next, hs⟩ | hassert
  · simp only [successors, hs] at h
    have hnext : Undecided nfa d { p with state := next } := ⟨hp.looks, hp.dollar⟩
    refine undecided_of_pass? hfew hnext (fun body negated hguard => ?_) (Option.mem_toList.mp h)
    exact hp.looksFit.lt (hguard ▸ hs)
  · rw [successors_of_not_assert hassert] at h
    obtain ⟨b, -, rfl⟩ := List.mem_map.mp h
    exact ⟨hp.looks, hp.dollar⟩

theorem sound_of_mem_successors (hfew : OpenLook.FewBranches nfa) {p q : ForwardPlace}
    (hp : p.Sound nfa atStart d) (h : q ∈ p.successors nfa progress atStart) :
    q.Sound nfa atStart d :=
  ⟨undecided_of_mem_successors hfew hp h, hp.looksFit.step (proceeds_of_mem_successors h)⟩

theorem stop?_of_accept {p : ForwardPlace} (hp : nfa.state p.state = .accept) :
    p.stop? h text cursor = if p.possible nfa text cursor then some cursor else none := by
  rw [stop?, Nfa.stopFrom_of_accept (a := (p.state, p.counts)) h hp]

/-- The places one step further find what a place finds. -/
theorem findSome?_successors (ht : nfa.Trackable) (hlocated : nfa.Located text floor start cursor
    progress atStart) (hstart : start ≤ cursor) {p : ForwardPlace} (hp : p.Sound nfa atStart d)
    (hunit : ∀ set next, nfa.state p.state ≠ .unit set next)
    (haccept : nfa.state p.state ≠ .accept) :
    (p.successors nfa progress atStart).findSome? (stop? ht.grounded text cursor) =
      p.stop? ht.grounded text cursor := by
  have hsteps : nfa.stopFrom ht.grounded text cursor (p.state, p.counts) = _ :=
    Nfa.stopFrom_of_steps ht.grounded hunit haccept ⟨p.state, p.counts, #[]⟩ rfl
  rcases (nfa.state p.state).assert_or with ⟨guard, next, hs⟩ | hassert
  · have hp' : Undecided nfa d { p with state := next } := ⟨hp.looks, hp.dollar⟩
    have hbody : ∀ body negated, guard = .ahead body negated → body < 65536 :=
      fun body negated hguard => hp.looksFit.lt (hguard ▸ hs)
    have hpossible := pass?_possible ht hlocated hstart hp' hbody
    have hstop : p.stop? ht.grounded text cursor =
        if p.possible nfa text cursor && nfa.holds text cursor guard then
          nfa.stopFrom ht.grounded text cursor (next, p.counts) else none := by
      rw [stop?, hsteps]
      cases hholds : nfa.holds text cursor guard <;>
        simp [Thread.successors, hs, hholds]
    rw [hstop, ← show possible nfa text cursor { p with state := next } =
      p.possible nfa text cursor from rfl, ← hpossible]
    simp only [successors, hs]
    cases hpass : pass? nfa progress atStart { p with state := next } guard with
    | none => rfl
    | some q =>
      obtain ⟨hstate, hcounts⟩ := Prod.mk.inj (key_of_pass? hpass)
      rw [Option.toList_some, List.findSome?_singleton, stop?, hstate, hcounts, Option.any_some]
  · rw [successors_of_not_assert hassert, findSome?_stop?_map, stop?, hsteps,
      Thread.successors_of_not_assert (a := (p.state, p.counts)) hassert, List.findSome?_map]
    rfl

end ForwardPlace

end UnitRegex
