import UnitRegex.Proofs.Table.ForwardReached
import UnitRegex.Proofs.Table.Walks

/-!
The subsets of the forward table. At a position a subset stands for one end of a match, and reading
a unit of the text leads to a subset that stands for the same end at the next position.
-/

namespace UnitRegex

namespace Nfa

variable {nfa : Nfa}

theorem Ready.read {start cursor s next : Nat} {set : CharSet} (h : nfa.Ready start cursor s)
    (hs : nfa.state s = .unit set next) : nfa.Ready start (cursor + 1) next := by
  rcases h with hle | ⟨target, count, hskips, hcount⟩
  · exact .inl (Nat.le_succ_of_le hle)
  · cases hskips with
    | skip hs' hskips' =>
      obtain ⟨-, rfl⟩ := NfaState.unit.inj (hs.symm.trans hs')
      cases count with
      | zero => exact .inl (by omega)
      | succ count => exact .inr ⟨target, count, hskips', by omega⟩

end Nfa

namespace Reached

variable {nfa : Nfa} {text : Text} {progress : Progress} {atStart : Bool}
variable {floor start cursor d : Nat}

/-- Taking more into account settles no less. -/
theorem Settled.of_worth {h : nfa.Grounded} {r r' : Reached}
    (hr : r.Settled h text atStart cursor d start) (hseen : r'.seen = r.seen)
    (hworth : (stop? h text cursor r).isSome → (stop? h text cursor r').isSome) :
    r'.Settled h text atStart cursor d start := by
  intro p hp hmem hopen hval
  rw [hseen] at hmem
  exact hworth (hr p hp hmem hopen hval)

/-- What has been found after following an entry over a unit. -/
structure Follows (h : nfa.Grounded) (text : Text) (atStart : Bool) (cursor d start : Nat)
    (worth : Option Nat) (r : Reached) : Prop where
  stop : r.stop? h text cursor = worth
  confirmed : r.confirmed.isSome = true → worth.isSome = true
  settled : r.confirmed = none → r.Settled h text atStart cursor d start

theorem Follows.addNew {h : nfa.Grounded} {r : Reached} (hr : r.confirmed = none)
    (hsettled : r.Settled h text atStart cursor d start) (e : Entry) :
    Follows h text atStart cursor d start ((r.stop? h text cursor).or (e.stop? h text cursor))
      (r.addNew e) where
  stop := stop?_addNew h hr e
  confirmed hsome := by
    rw [confirmed_addNew, hr] at hsome
    simp at hsome
  settled _ := hsettled.of_worth (seen_addNew r e) fun hsome => by
    rw [stop?_addNew h hr, Option.isSome_or, hsome, Bool.true_or]

theorem Follows.refl {h : nfa.Grounded} {r : Reached} (hr : r.confirmed = none)
    (hsettled : r.Settled h text atStart cursor d start) {value : Option Nat}
    (hvalue : value = none) :
    Follows h text atStart cursor d start ((r.stop? h text cursor).or value) r where
  stop := by rw [hvalue, Option.or_none]
  confirmed hsome := by simp [hr] at hsome
  settled _ := hsettled

section

variable (ht : nfa.Trackable) (hd : d < 65535) {u : CodeUnit} (hu : text[cursor]? = some u)

include ht hd hu

theorem addAfter_thread_spec
    (hlocated : nfa.Located text floor start (cursor + 1) progress false) {state : Nat}
    {counts : List Nat} {looks : List OpenLook}
    (he : Entry.Sound nfa d (.thread state counts looks)) (hready : nfa.Ready start cursor state)
    {r : Reached} (hr : r.confirmed = none)
    (hsettled : r.Settled ht.grounded text false (cursor + 1) (d + 1) start) :
    Follows ht.grounded text false (cursor + 1) (d + 1) start
      ((r.stop? ht.grounded text (cursor + 1)).or
        (Entry.stop? ht.grounded text cursor (.thread state counts looks)))
      (r.addAfter nfa progress u (.thread state counts looks)) := by
  obtain ⟨⟨set, next, hs, hfit⟩, hlooks⟩ := he
  have hstop : Entry.stop? ht.grounded text cursor (.thread state counts looks) =
      if OpenLook.allHold nfa text cursor looks ∧ set.contains u = true then
        nfa.stopFrom ht.grounded text (cursor + 1) (next, counts) else none := by
    rw [Entry.stop?, ForwardPlace.stop?,
      Nfa.stopFrom_of_unit (a := (state, counts)) ht.grounded ht.direction hs, hu]
    cases hset : set.contains u <;> simp [ForwardPlace.possible, hset]
  obtain ⟨hsome, hnone⟩ := OpenLook.allAfter?_spec ht.fewBranches hlooks hd hu
  simp only [addAfter, hs]
  split
  · rename_i hset
    cases hafter : OpenLook.allAfter? nfa u looks with
    | none =>
      refine .refl hr hsettled ?_
      rw [hstop, hnone hafter]
      simp
    | some looks' =>
      obtain ⟨hlooks', hall⟩ := hsome looks' hafter
      have hp : ForwardPlace.Sound nfa false (d + 1) ⟨next, false, counts, looks'⟩ :=
        ⟨⟨hlooks', by simp⟩, hfit⟩
      obtain ⟨hadd, hconfirmed, hsettled'⟩ := add_spec ht hlocated hp (hready.read hs) hr hsettled
      have hplace : ForwardPlace.stop? ht.grounded text (cursor + 1)
          ⟨next, false, counts, looks'⟩ =
          Entry.stop? ht.grounded text cursor (.thread state counts looks) := by
        rw [hstop, hall, ForwardPlace.stop?]
        simp [ForwardPlace.possible, hset]
      rw [hplace] at hadd
      exact ⟨hadd, fun h => hadd ▸ hconfirmed h, hsettled'⟩
  · rename_i hset
    refine .refl hr hsettled ?_
    rw [hstop, if_neg fun h => hset h.2]

theorem addAfter_unconfirmed_spec {delay : UInt16} {looks : List OpenLook}
    (he : Entry.Sound nfa d (.unconfirmed delay looks)) {r : Reached} (hr : r.confirmed = none)
    (hsettled : r.Settled ht.grounded text false (cursor + 1) (d + 1) start) :
    Follows ht.grounded text false (cursor + 1) (d + 1) start
      ((r.stop? ht.grounded text (cursor + 1)).or
        (Entry.stop? ht.grounded text cursor (.unconfirmed delay looks)))
      (r.addAfter nfa progress u (.unconfirmed delay looks)) := by
  obtain ⟨hdelay, hlooks⟩ := he
  have hnext := OpenLook.toNat_add_one hdelay hd
  obtain ⟨hsome, hnone⟩ := OpenLook.allAfter?_spec ht.fewBranches hlooks hd hu
  cases hafter : OpenLook.allAfter? nfa u looks with
  | none =>
    simp only [addAfter, hafter]
    refine .refl hr hsettled ?_
    rw [Entry.stop?, hnone hafter]
    rfl
  | some looks' =>
    obtain ⟨-, hall⟩ := hsome looks' hafter
    have hlater : Entry.stop? ht.grounded text (cursor + 1) (.unconfirmed (delay + 1) looks') =
        Entry.stop? ht.grounded text cursor (.unconfirmed delay looks) := by
      rw [Entry.stop?, Entry.stop?, hall, hnext, Nat.add_sub_add_right]
    cases looks' with
    | nil =>
      simp only [addAfter, hafter]
      have hvalue : Entry.stop? ht.grounded text cursor (.unconfirmed delay looks) =
          some (cursor - delay.toNat) := by
        rw [Entry.stop?, hall]
        rfl
      rw [hvalue]
      refine ⟨?_, fun _ => by simp, by simp⟩
      simp [stop?, hr, hnext]
    | cons look looks' =>
      simp only [addAfter, hafter]
      rw [← hlater]
      exact .addNew hr hsettled _

/-- Following an entry over a unit finds its end, after what was found before. -/
theorem addAfter_spec (hlocated : nfa.Located text floor start (cursor + 1) progress false)
    {e : Entry} (he : e.Sound nfa d) (hready : e.Ready nfa start cursor) {r : Reached}
    (hr : r.confirmed = none)
    (hsettled : r.Settled ht.grounded text false (cursor + 1) (d + 1) start) :
    Follows ht.grounded text false (cursor + 1) (d + 1) start
      ((r.stop? ht.grounded text (cursor + 1)).or (e.stop? ht.grounded text cursor))
      (r.addAfter nfa progress u e) := by
  cases e with
  | thread state counts looks =>
    exact addAfter_thread_spec ht hd hu hlocated he hready hr hsettled
  | unconfirmed delay looks => exact addAfter_unconfirmed_spec ht hd hu he hr hsettled
  | atEnd =>
    refine .refl hr hsettled ?_
    obtain ⟨hlt, -⟩ := Array.getElem?_eq_some_iff.mp hu
    rw [Entry.stop?, if_neg (by omega)]

end

/-- Following all entries over a unit finds the first of their ends. -/
theorem addAllAfter_spec (ht : nfa.Trackable) (hd : d < 65535) {u : CodeUnit}
    (hu : text[cursor]? = some u)
    (hlocated : nfa.Located text floor start (cursor + 1) progress false) {entries : List Entry}
    (hsound : ∀ e ∈ entries, e.Sound nfa d) (hready : ∀ e ∈ entries, e.Ready nfa start cursor)
    {r : Reached} (hr : r.confirmed = none)
    (hsettled : r.Settled ht.grounded text false (cursor + 1) (d + 1) start) :
    (r.addAllAfter nfa progress u entries).stop? ht.grounded text (cursor + 1) =
      (r.stop? ht.grounded text (cursor + 1)).or
        (entries.findSome? (Entry.stop? ht.grounded text cursor)) := by
  induction entries generalizing r with
  | nil => simp [addAllAfter]
  | cons e rest ih =>
    obtain ⟨hstop, hconfirmed, hsettled'⟩ := addAfter_spec ht hd hu hlocated
      (hsound e (by simp)) (hready e (by simp)) hr hsettled
    have hcons : (r.stop? ht.grounded text (cursor + 1)).or
        ((e :: rest).findSome? (Entry.stop? ht.grounded text cursor)) =
        ((r.stop? ht.grounded text (cursor + 1)).or (e.stop? ht.grounded text cursor)).or
          (rest.findSome? (Entry.stop? ht.grounded text cursor)) := by
      rw [Option.or_assoc, List.findSome?_cons]
      cases e.stop? ht.grounded text cursor <;> rfl
    rw [hcons, addAllAfter]
    split
    · rename_i hsome
      rw [hstop, Option.or_of_isSome (hconfirmed hsome)]
    · rename_i hnone
      have hnone : (r.addAfter nfa progress u e).confirmed = none := by simpa using hnone
      rw [ih (fun a ha => hsound a (by simp [ha])) (fun a ha => hready a (by simp [ha])) hnone
        (hsettled' hnone), hstop]

theorem settled_empty (h : nfa.Grounded) :
    ({} : Reached).Settled h text atStart cursor d start := by
  intro p _ hmem
  simp at hmem

/-- What the entries in front of a unit ensure of those behind it. -/
theorem forall_mem_addAllAfter {P : Entry → Prop} {Q : ForwardPlace → Prop}
    (h : Ensures nfa progress false Q P) {u : CodeUnit}
    {entries : List Entry}
    (hthread : ∀ state counts looks set next looks', .thread state counts looks ∈ entries →
      nfa.state state = .unit set next → OpenLook.allAfter? nfa u looks = some looks' →
      Q ⟨next, false, counts, looks'⟩)
    (hunconfirmed : ∀ delay looks looks', .unconfirmed delay looks ∈ entries →
      OpenLook.allAfter? nfa u looks = some looks' → P (.unconfirmed (delay + 1) looks'))
    {r : Reached} (hr : ∀ e ∈ r.entries, P e) :
    ∀ e ∈ (r.addAllAfter nfa progress u entries).entries, P e := by
  induction entries generalizing r with
  | nil => exact hr
  | cons e rest ih =>
    have hfollow : ∀ a ∈ (r.addAfter nfa progress u e).entries, P a := by
      cases e with
      | thread state counts looks =>
        cases hs : nfa.state state
        case unit set next =>
          simp only [addAfter, hs]
          split
          · cases hafter : OpenLook.allAfter? nfa u looks with
            | none => exact hr
            | some looks' =>
              exact h.add hr
                (hthread state counts looks set next looks' (by simp) hs hafter)
          · exact hr
        all_goals
          simp only [addAfter, hs]
          exact hr
      | unconfirmed delay looks =>
        cases hafter : OpenLook.allAfter? nfa u looks with
        | none =>
          simp only [addAfter, hafter]
          exact hr
        | some looks' =>
          have hnew := hunconfirmed delay looks looks' (by simp) hafter
          cases looks' with
          | nil =>
            simp only [addAfter, hafter]
            exact hr
          | cons look looks' =>
            simp only [addAfter, hafter]
            exact forall_mem_addNew hr hnew
      | atEnd => exact hr
    rw [addAllAfter]
    split
    · exact hfollow
    · exact ih (fun state counts looks set next looks' hmem =>
          hthread state counts looks set next looks' (by simp [hmem]))
        (fun delay looks looks' hmem => hunconfirmed delay looks looks' (by simp [hmem])) hfollow

/-- Without threads nothing depends on progress, and no thread follows. -/
theorem addAllAfter_of_no_thread {u : CodeUnit} {entries : List Entry}
    (hentries : ∀ e ∈ entries, e.isThread = false) (other : Progress) {r : Reached}
    (hr : ∀ e ∈ r.entries, e.isThread = false) :
    r.addAllAfter nfa progress u entries = r.addAllAfter nfa other u entries ∧
      ∀ e ∈ (r.addAllAfter nfa progress u entries).entries, e.isThread = false := by
  induction entries generalizing r with
  | nil => exact ⟨rfl, hr⟩
  | cons e rest ih =>
    have hrest : ∀ e ∈ rest, e.isThread = false := fun a ha => hentries a (by simp [ha])
    have hfollow : r.addAfter nfa progress u e = r.addAfter nfa other u e ∧
        ∀ a ∈ (r.addAfter nfa progress u e).entries, a.isThread = false := by
      cases e with
      | thread state counts looks =>
        exact absurd (hentries _ List.mem_cons_self) (by simp [Entry.isThread])
      | unconfirmed delay looks =>
        refine ⟨rfl, ?_⟩
        rw [addAfter]
        split
        · exact hr
        · exact hr
        · exact forall_mem_addNew hr rfl
      | atEnd => exact ⟨rfl, hr⟩
    rw [addAllAfter, addAllAfter, ← hfollow.1]
    split
    · exact ⟨rfl, hfollow.2⟩
    · exact ih hrest hfollow.2

end Reached

namespace ForwardSubset

variable {nfa : Nfa} {text : Text} {floor start cursor d : Nat} {key : ForwardSubset}

/-- The end that a subset stands for at a position. -/
noncomputable def stop? (h : nfa.Grounded) (text : Text) (cursor : Nat) (key : ForwardSubset) :
    Option Nat :=
  (key.entries.findSome? (Entry.stop? h text cursor)).or
    (key.confirmed.map fun delay => cursor - delay.toNat)

theorem stop?_toSubset (h : nfa.Grounded) (progress : Progress) (r : Reached) :
    (r.toSubset progress).stop? h text cursor = r.stop? h text cursor := rfl

/-- A subset fits a position if its progress tracks the text in front of it, as far as a thread
needs it, and its threads are ready. -/
structure Fits (nfa : Nfa) (text : Text) (floor start cursor : Nat) (key : ForwardSubset) :
    Prop where
  floor_le : floor ≤ cursor
  far : floor = 0 ∨ floor + nfa.context = start
  tracks : key.entries.any Entry.isThread = true → key.progress.Tracks nfa text floor cursor
  ready : ∀ e ∈ key.entries, e.Ready nfa start cursor

theorem exists_tracks (hnum : Progress.Numberable nfa) (hfloor : floor ≤ cursor)
    (hcursor : cursor ≤ text.size) :
    ∃ progress, Progress.Tracks nfa text floor cursor progress := by
  induction cursor with
  | zero =>
    obtain rfl : floor = 0 := by omega
    exact ⟨[], Progress.tracks_nil⟩
  | succ cursor ih =>
    by_cases heq : floor = cursor + 1
    · subst heq
      exact ⟨[], Progress.tracks_nil⟩
    · obtain ⟨progress, h⟩ := ih (by omega) (by omega)
      have hu : text[cursor]? = some text[cursor] := by simp
      exact ⟨_, h.after hnum (by omega) hu⟩

/-- Reading a unit of the text leads to a subset that stands for the same end, apart from a match
that was confirmed before. -/
theorem stop?_after (ht : nfa.Trackable) (hd : d < 65535) {u : CodeUnit}
    (hu : text[cursor]? = some u) (hsound : ∀ e ∈ key.entries, e.Sound nfa d)
    (hfits : key.Fits nfa text floor start cursor) :
    (key.after nfa u).stop? ht.grounded text (cursor + 1) =
      key.entries.findSome? (Entry.stop? ht.grounded text cursor) := by
  obtain ⟨hlt, -⟩ := Array.getElem?_eq_some_iff.mp hu
  have hfollow : ∀ progress : Progress, progress.Tracks nfa text floor (cursor + 1) →
      (Reached.addAllAfter nfa progress u {} key.entries).stop? ht.grounded text (cursor + 1) =
        key.entries.findSome? (Entry.stop? ht.grounded text cursor) := by
    intro progress htracks
    have hlocated : nfa.Located text floor start (cursor + 1) progress false :=
      ⟨htracks, hfits.far, by simp⟩
    exact Reached.addAllAfter_spec ht hd hu hlocated hsound hfits.ready rfl
      (Reached.settled_empty ht.grounded)
  rw [after, stop?_toSubset]
  by_cases hthread : key.entries.any Entry.isThread = true
  · exact hfollow _ ((hfits.tracks hthread).after ht.numberable hfits.floor_le hu)
  · obtain ⟨progress, htracks⟩ := exists_tracks ht.numberable
      (Nat.le_succ_of_le hfits.floor_le) (show cursor + 1 ≤ text.size from hlt)
    have hnone : ∀ e ∈ key.entries, e.isThread = false := by simpa using hthread
    rw [(Reached.addAllAfter_of_no_thread hnone progress (by simp)).1]
    exact hfollow progress htracks

end ForwardSubset

end UnitRegex
