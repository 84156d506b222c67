import UnitRegex.Proofs.Table.ForwardPlaces

/-!
What has been reached at one position. It is worth the first end of all places explored so far, and
every match that is not confirmed yet still has to see what its look-aheads ask for.
-/

namespace UnitRegex

namespace Entry

variable {nfa : Nfa} (h : nfa.Grounded) (text : Text)

/-- The end that an entry stands for at a position. -/
noncomputable def stop? (cursor : Nat) : Entry → Option Nat
  | thread state counts looks => ForwardPlace.stop? h text cursor ⟨state, false, counts, looks⟩
  | unconfirmed delay looks =>
    if OpenLook.allHold nfa text cursor looks then some (cursor - delay.toNat) else none
  | atEnd => if cursor = text.size then some cursor else none

/-- Threads stand in front of a unit, and what an entry still has to see is undecided. -/
def Sound (nfa : Nfa) (d : Nat) : Entry → Prop
  | thread state _ looks =>
    (∃ set next, nfa.state state = .unit set next ∧ nfa.LooksFit false next) ∧
      ∀ q ∈ looks, q.Undecided nfa d
  | unconfirmed delay looks => delay.toNat ≤ d ∧ ∀ q ∈ looks, q.Undecided nfa d
  | atEnd => True

/-- Guards behind a thread can be decided when it has read its unit. -/
def Ready (nfa : Nfa) (start cursor : Nat) : Entry → Prop
  | thread state _ _ => nfa.Ready start cursor state
  | _ => True

end Entry

namespace Reached

variable {nfa : Nfa} (h : nfa.Grounded) (text : Text)

/-- The end that has been reached. -/
noncomputable def stop? (cursor : Nat) (r : Reached) : Option Nat :=
  (r.entries.reverse.findSome? (Entry.stop? h text cursor)).or
    (r.confirmed.map fun delay => cursor - delay.toNat)

variable {text} {progress : Progress} {atStart : Bool} {floor start cursor d : Nat}

/-- The places explored so far have been taken into account. -/
def Settled (h : nfa.Grounded) (text : Text) (atStart : Bool) (cursor d start : Nat) (r : Reached) :
    Prop :=
  Valuation.Settled
    (fun p : ForwardPlace => p.Sound nfa atStart d ∧ nfa.Ready start cursor p.state) id
    (fun r p => p ∈ r.seen) (ForwardPlace.stop? h text cursor) (stop? h text cursor) r

theorem stop?_push {r : Reached} (hr : r.confirmed = none) (e : Entry) :
    stop? h text cursor { r with entries := e :: r.entries } =
      (stop? h text cursor r).or (e.stop? h text cursor) := by
  simp [stop?, hr, List.findSome?_append]

theorem stop?_addNew {r : Reached} (hr : r.confirmed = none) (e : Entry) :
    stop? h text cursor (r.addNew e) = (stop? h text cursor r).or (e.stop? h text cursor) := by
  unfold addNew
  split
  · rename_i hmem
    have hmem : e ∈ r.entries := by simpa using hmem
    cases he : e.stop? h text cursor with
    | none => simp
    | some stop =>
      have hsome : (stop? h text cursor r).isSome := by
        rw [stop?, Option.isSome_or, List.findSome?_isSome_iff.mpr
          ⟨e, by simpa using hmem, by simp [he]⟩]
        rfl
      rw [Option.or_of_isSome hsome]
  · exact stop?_push h hr e

/-- Before the end of the input nothing is read behind it. -/
theorem stop?_of_dollar (ht : nfa.Trackable) {p : ForwardPlace} {set : CharSet} {next : Nat}
    (hs : nfa.state p.state = .unit set next) (hdollar : p.dollar = true) :
    p.stop? ht.grounded text cursor = none := by
  rw [ForwardPlace.stop?]
  split
  · rename_i hpossible
    have hend : cursor = text.size := by
      simp [ForwardPlace.possible, hdollar] at hpossible
      exact hpossible.2
    rw [Nfa.stopFrom_of_unit (a := (p.state, p.counts)) ht.grounded ht.direction hs, hend]
    simp
  · rfl

theorem visit_seen {p : ForwardPlace} {r : Reached} (hr : p ∈ r.seen) :
    visit nfa progress atStart p r = .go [] r := by
  have hcontains : r.seen.contains p = true := by simpa using hr
  simp only [visit, hcontains, if_true]

theorem visit_unit {p : ForwardPlace} {r : Reached} {set : CharSet} {next : Nat}
    (hr : p ∉ r.seen) (hs : nfa.state p.state = .unit set next) :
    visit nfa progress atStart p r = if p.dollar then .go [] { r with seen := r.seen.insert p }
      else .go [] { r with
        seen := r.seen.insert p, entries := .thread p.state p.counts p.looks :: r.entries } := by
  have hcontains : r.seen.contains p = false := by simpa using hr
  simp only [visit, hcontains, Bool.false_eq_true, if_false, hs]

theorem visit_accept {p : ForwardPlace} {r : Reached} (hr : p ∉ r.seen)
    (hs : nfa.state p.state = .accept) :
    visit nfa progress atStart p r =
      let r := { r with seen := r.seen.insert p }
      if p.dollar then .go [] (r.addNew .atEnd)
      else if p.looks.isEmpty then .stop { r with confirmed := some 0 }
      else .go [] (r.addNew (.unconfirmed 0 p.looks)) := by
  have hcontains : r.seen.contains p = false := by simpa using hr
  simp only [visit, hcontains, Bool.false_eq_true, if_false, hs]

theorem visit_other {p : ForwardPlace} {r : Reached} (hr : p ∉ r.seen)
    (hunit : ∀ set next, nfa.state p.state ≠ .unit set next)
    (haccept : nfa.state p.state ≠ .accept) :
    visit nfa progress atStart p r =
      .go (p.successors nfa progress atStart) { r with seen := r.seen.insert p } := by
  have hcontains : r.seen.contains p = false := by simpa using hr
  simp only [visit, hcontains, Bool.false_eq_true, if_false]

theorem confirmed_addNew (r : Reached) (e : Entry) : (r.addNew e).confirmed = r.confirmed := by
  unfold addNew
  split <;> rfl

theorem stop?_accept {p : ForwardPlace} (hp : p.Sound nfa atStart d)
    (hs : nfa.state p.state = .accept) :
    p.stop? h text cursor =
      if p.dollar then Entry.stop? h text cursor .atEnd
      else Entry.stop? h text cursor (.unconfirmed 0 p.looks) := by
  rw [ForwardPlace.stop?_of_accept h hs, ForwardPlace.possible]
  cases hdollar : p.dollar with
  | true => simp [hp.dollar hdollar, OpenLook.allHold, Entry.stop?]
  | false => simp [Entry.stop?]

/-- A place in front of a unit adds a thread, unless the input ends there. -/
theorem visit_unit_spec (ht : nfa.Trackable) {p : ForwardPlace} {r : Reached} {set : CharSet}
    {next : Nat} (hr : r.confirmed = none) (hnew : p ∉ r.seen)
    (hs : nfa.state p.state = .unit set next) :
    ∃ r', visit nfa progress atStart p r = .go [] r' ∧ r'.confirmed = none ∧
      r'.seen = r.seen.insert p ∧
      stop? ht.grounded text cursor r' =
        (stop? ht.grounded text cursor r).or (p.stop? ht.grounded text cursor) := by
  rw [visit_unit hnew hs]
  cases hdollar : p.dollar with
  | true =>
    refine ⟨_, if_pos rfl, hr, rfl, ?_⟩
    rw [stop?_of_dollar ht hs hdollar, Option.or_none]
    rfl
  | false =>
    refine ⟨_, if_neg (by simp), hr, rfl, ?_⟩
    rw [stop?_push (r := { r with seen := r.seen.insert p }) ht.grounded hr, Entry.stop?, ← hdollar]
    rfl

variable (text cursor) in
/-- A match adds what it still has to see, and ends the exploration if that is nothing. -/
theorem visit_accept_spec {p : ForwardPlace} {r : Reached} (hp : p.Sound nfa atStart d)
    (hr : r.confirmed = none) (hnew : p ∉ r.seen) (hs : nfa.state p.state = .accept) :
    ∃ r', r'.seen = r.seen.insert p ∧
      stop? h text cursor r' = (stop? h text cursor r).or (p.stop? h text cursor) ∧
      ((visit nfa progress atStart p r = .go [] r' ∧ r'.confirmed = none) ∨
        (visit nfa progress atStart p r = .stop r' ∧ r'.confirmed.isSome ∧
          (p.stop? h text cursor).isSome)) := by
  have hstop : p.stop? h text cursor = _ := stop?_accept h hp hs
  have hadd : ∀ e : Entry, p.stop? h text cursor = e.stop? h text cursor →
      stop? h text cursor ({ r with seen := r.seen.insert p }.addNew e) =
        (stop? h text cursor r).or (p.stop? h text cursor) := by
    intro e he
    rw [stop?_addNew (r := { r with seen := r.seen.insert p }) h hr, he]
    rfl
  rw [visit_accept hnew hs]
  cases hdollar : p.dollar with
  | true =>
    rw [hdollar, if_pos rfl] at hstop
    exact ⟨_, seen_addNew _ _, hadd _ hstop, .inl ⟨rfl, (confirmed_addNew _ _).trans hr⟩⟩
  | false =>
    rw [hdollar, if_neg (by simp)] at hstop
    by_cases hlooks : p.looks.isEmpty = true
    · have hval : p.stop? h text cursor = some cursor := by
        rw [hstop, List.isEmpty_iff.mp hlooks]
        simp [Entry.stop?, OpenLook.allHold]
      refine ⟨{ r with seen := r.seen.insert p, confirmed := some 0 }, rfl, ?_,
        .inr ⟨by simp [hlooks], rfl, by simp [hval]⟩⟩
      rw [hval]
      simp [stop?, hr]
    · exact ⟨_, seen_addNew _ _, hadd _ hstop,
        .inl ⟨by simp [hlooks], (confirmed_addNew _ _).trans hr⟩⟩

/-- Exploring a place adds the end that it finds behind those that are there. -/
theorem valuation (ht : nfa.Trackable)
    (hlocated : nfa.Located text floor start cursor progress atStart) :
    Valuation (visit nfa progress atStart) id
      (fun q p => (q.state, q.counts) ∈ nfa.epsilon (p.state, p.counts))
      (fun p => p.Sound nfa atStart d ∧ nfa.Ready start cursor p.state)
      (fun r => r.confirmed = none)
      (fun r => r.confirmed.isSome) (fun r p => p ∈ r.seen)
      (ForwardPlace.stop? ht.grounded text cursor) (stop? ht.grounded text cursor) where
  wellFounded := InvImage.wf (fun p : ForwardPlace => (p.state, p.counts))
    ⟨fun a => Nfa.acc_of_settles (ht.grounded a)⟩
  same p q _ _ hpq hp := by
    obtain rfl : p = q := hpq
    exact hp
  seen p r _ hr hmem := ⟨r, visit_seen hmem, hr, rfl, fun k hk => hk⟩
  fresh p r hp hr hnew := by
    have hseen : ∀ r' : Reached, r'.seen = r.seen.insert p → ∀ k, k ∈ r'.seen →
        k = p ∨ k ∈ r.seen := by
      intro r' hr' k hk
      rw [hr', Std.HashSet.mem_insert] at hk
      exact hk.imp (fun h => (eq_of_beq h).symm) id
    rcases (nfa.state p.state).unit_or with ⟨set, next, hs⟩ | hunit
    · obtain ⟨r', hvisit, hr', hmarks, hworth⟩ := visit_unit_spec ht hr hnew hs
      exact .inl ⟨[], r', p.stop? ht.grounded text cursor, hvisit, hr', hworth, by simp,
        hseen r' hmarks, by simp⟩
    by_cases haccept : nfa.state p.state = .accept
    · obtain ⟨r', hmarks, hworth, hvisit⟩ :=
        visit_accept_spec ht.grounded text cursor hp.1 hr hnew haccept
      rcases hvisit with ⟨hvisit, hr'⟩ | ⟨hvisit, hr', hsome⟩
      · exact .inl ⟨[], r', p.stop? ht.grounded text cursor, hvisit, hr', hworth, by simp,
          hseen r' hmarks, by simp⟩
      · exact .inr ⟨r', hvisit, hr', hworth, hsome⟩
    · have hstart := hp.2.of_not_unit hunit
      have hval := ForwardPlace.findSome?_successors ht hlocated hstart hp.1 hunit haccept
      refine .inl ⟨_, _, none, visit_other hnew hunit haccept, hr, by rw [Option.or_none]; rfl,
        by rw [hval, Option.none_or], hseen _ rfl, fun q hq => ?_⟩
      have hsound := ForwardPlace.sound_of_mem_successors ht.fewBranches hp.1 hq
      exact ⟨⟨hsound, .inl hstart⟩, ForwardPlace.mem_epsilon_of_mem_successors hq⟩

/-- What is found after exploring a place. -/
theorem add_spec (ht : nfa.Trackable)
    (hlocated : nfa.Located text floor start cursor progress atStart) {p : ForwardPlace}
    (hp : p.Sound nfa atStart d) (hready : nfa.Ready start cursor p.state) {r : Reached}
    (hr : r.confirmed = none) (hsettled : r.Settled ht.grounded text atStart cursor d start) :
    stop? ht.grounded text cursor (r.add nfa progress atStart p) =
        (stop? ht.grounded text cursor r).or (p.stop? ht.grounded text cursor) ∧
      ((r.add nfa progress atStart p).confirmed.isSome = true →
        (stop? ht.grounded text cursor (r.add nfa progress atStart p)).isSome) ∧
      ((r.add nfa progress atStart p).confirmed = none →
        (r.add nfa progress atStart p).Settled ht.grounded text atStart cursor d start) := by
  obtain ⟨hworth, hend⟩ := (valuation ht hlocated).explore_spec
    (fun q (hq : q ∈ [p]) => by
      obtain rfl := List.mem_singleton.mp hq
      exact ⟨hp, hready⟩) hr hsettled
  rw [List.findSome?_singleton] at hworth
  refine ⟨hworth, fun hsome => ?_, fun hnone => ?_⟩
  · rcases hend with ⟨-, h⟩ | ⟨hnone, -⟩
    · exact h
    · rw [add, hnone] at hsome
      simp at hsome
  · rcases hend with ⟨hdone, -⟩ | ⟨-, h⟩
    · rw [add] at hnone
      rw [hnone] at hdone
      simp at hdone
    · exact h

/-- What the places explored ensure of the entries they lead to. -/
structure Ensures (nfa : Nfa) (progress : Progress) (atStart : Bool) (Q : ForwardPlace → Prop)
    (P : Entry → Prop) : Prop where
  successors : ∀ p q, Q p → (∀ set next, nfa.state p.state ≠ .unit set next) →
    q ∈ p.successors nfa progress atStart → Q q
  thread : ∀ p set next, Q p → nfa.state p.state = .unit set next →
    P (.thread p.state p.counts p.looks)
  unconfirmed : ∀ p, Q p → nfa.state p.state = .accept → P (.unconfirmed 0 p.looks)
  atEnd : P .atEnd

variable {P : Entry → Prop} {Q : ForwardPlace → Prop}

theorem forall_mem_addNew {r : Reached} (hr : ∀ e ∈ r.entries, P e) {e : Entry} (he : P e) :
    ∀ a ∈ (r.addNew e).entries, P a := by
  by_cases hmem : r.entries.contains e = true
  · rw [addNew, if_pos hmem]
    exact hr
  · rw [addNew, if_neg hmem]
    exact List.forall_mem_cons.mpr ⟨he, hr⟩

theorem Ensures.visit (h : Ensures nfa progress atStart Q P) {p : ForwardPlace} (hp : Q p)
    {r : Reached} (hr : ∀ e ∈ r.entries, P e) :
    (∀ r', visit nfa progress atStart p r = .stop r' → ∀ e ∈ r'.entries, P e) ∧
      ∀ next r', Reached.visit nfa progress atStart p r = .go next r' →
        (∀ e ∈ r'.entries, P e) ∧ ∀ q ∈ next, Q q := by
  have hgo : ∀ v : Visit ForwardPlace Reached, (∃ next r', v = .go next r' ∧
      (∀ e ∈ r'.entries, P e) ∧ ∀ q ∈ next, Q q) →
      (∀ r', v = .stop r' → ∀ e ∈ r'.entries, P e) ∧
        ∀ next r', v = .go next r' → (∀ e ∈ r'.entries, P e) ∧ ∀ q ∈ next, Q q := by
    rintro v ⟨next, r', rfl, hr', hnext⟩
    refine ⟨by simp, fun next' r'' heq => ?_⟩
    obtain ⟨rfl, rfl⟩ := Visit.go.inj heq
    exact ⟨hr', hnext⟩
  by_cases hseen : p ∈ r.seen
  · rw [visit_seen hseen]
    exact hgo _ ⟨[], r, rfl, hr, by simp⟩
  rcases (nfa.state p.state).unit_or with ⟨set, next, hs⟩ | hunit
  · rw [visit_unit hseen hs]
    split
    · exact hgo _ ⟨[], _, rfl, hr, by simp⟩
    · exact hgo _ ⟨[], _, rfl, List.forall_mem_cons.mpr ⟨h.thread p set next hp hs, hr⟩, by simp⟩
  · by_cases haccept : nfa.state p.state = .accept
    · have hr' : ∀ e ∈ { r with seen := r.seen.insert p }.entries, P e := hr
      rw [visit_accept hseen haccept]
      dsimp only
      split
      · exact hgo _ ⟨[], _, rfl, forall_mem_addNew hr' h.atEnd, by simp⟩
      · split
        · refine ⟨fun r' heq => ?_, by simp⟩
          obtain rfl := Visit.stop.inj heq
          exact hr
        · exact hgo _ ⟨[], _, rfl, forall_mem_addNew hr' (h.unconfirmed p hp haccept), by simp⟩
    · rw [visit_other hseen hunit haccept]
      exact hgo _ ⟨_, _, rfl, hr, fun q hq => h.successors p q hp hunit hq⟩

theorem Ensures.add (h : Ensures nfa progress atStart Q P) {r : Reached}
    (hr : ∀ e ∈ r.entries, P e) {p : ForwardPlace} (hp : Q p) :
    ∀ e ∈ (r.add nfa progress atStart p).entries, P e :=
  explore_preserves
    (fun _ _ r' hp hr hvisit => (h.visit hp hr).1 r' hvisit)
    (fun _ _ next r' hp hr hvisit => (h.visit hp hr).2 next r' hvisit) (by simpa using hp) hr

/-- Entries that come of sound places are sound. -/
theorem ensures_sound (ht : nfa.Trackable) (d : Nat) :
    Ensures nfa progress atStart (ForwardPlace.Sound nfa atStart d) (Entry.Sound nfa d) where
  successors _ _ hp _ hq := ForwardPlace.sound_of_mem_successors ht.fewBranches hp hq
  thread _ set next hp hs := ⟨⟨set, next, hs, hp.looksFit.step (.read hs)⟩, hp.looks⟩
  unconfirmed _ hp _ := ⟨Nat.zero_le _, hp.looks⟩
  atEnd := trivial

/-- Threads that come of ready places are ready. -/
theorem ensures_ready (ht : nfa.Trackable) (start cursor : Nat) :
    Ensures nfa progress atStart
      (fun p => (∃ d, p.Sound nfa atStart d) ∧ nfa.Ready start cursor p.state)
      (Entry.Ready nfa start cursor) where
  successors _ _ hp hunit hq := by
    obtain ⟨⟨d, hsound⟩, hready⟩ := hp
    have hq := ForwardPlace.sound_of_mem_successors ht.fewBranches hsound hq
    exact ⟨⟨d, hq⟩, .inl (hready.of_not_unit hunit)⟩
  thread _ _ _ hp _ := hp.2
  unconfirmed _ _ _ := trivial
  atEnd := trivial

end Reached

end UnitRegex
