import UnitRegex.Proofs.Table.ForwardEnds

/-!
The delays of the forward table. A walk never reports an end in front of the start of the search,
whatever the look-arounds of the pattern are: a thread that still skips units is not at an end, and
a match grows one unit older with every unit that is read.
-/

namespace UnitRegex

/-- An entry does not stand for an end in front of the start of a search. -/
def Entry.NotBefore (nfa : Nfa) (start cursor : Nat) : Entry → Prop
  | thread state _ _ => nfa.Ready start cursor state
  | unconfirmed delay _ => start + delay.toNat ≤ cursor
  | atEnd => True

theorem toNat_add_one_le (delay : UInt16) : (delay + 1).toNat ≤ delay.toNat + 1 := by
  rw [UInt16.toNat_add]
  exact Nat.mod_le _ _

namespace Reached

variable {nfa : Nfa} {progress : Progress} {atStart : Bool} {start cursor : Nat}

theorem ensures_notBefore (nfa : Nfa) (progress : Progress) (atStart : Bool) (start cursor : Nat) :
    Ensures nfa progress atStart (fun p => nfa.Ready start cursor p.state)
      (Entry.NotBefore nfa start cursor) where
  successors _ _ hready hunit _ := .inl (hready.of_not_unit hunit)
  thread _ _ _ hready _ := hready
  unconfirmed p hready haccept := by
    have hle := hready.of_not_unit (by simp [haccept])
    simpa [Entry.NotBefore] using hle
  atEnd := trivial

/-- Only a visit of an accepting state confirms a match, and it ends there. -/
theorem confirmed_visit (p : ForwardPlace) (r : Reached) :
    (∀ r', visit nfa progress atStart p r = .stop r' →
      r'.confirmed = some 0 ∧ nfa.state p.state = .accept) ∧
      ∀ next r', visit nfa progress atStart p r = .go next r' → r'.confirmed = r.confirmed := by
  unfold visit
  split
  · simp
  · split
    · split <;> simp
    · rename_i haccept
      split
      · simp [confirmed_addNew]
      · split
        · constructor
          · intro r' heq
            obtain rfl := Visit.stop.inj heq
            exact ⟨rfl, haccept⟩
          · simp
        · simp [confirmed_addNew]
    · simp

/-- What has been reached at a position does not stand for an end in front of the start. -/
structure NotBefore (nfa : Nfa) (start cursor : Nat) (r : Reached) : Prop where
  entries : ∀ e ∈ r.entries, e.NotBefore nfa start cursor
  confirmed : ∀ delay, r.confirmed = some delay → start + delay.toNat ≤ cursor

theorem notBefore_empty (nfa : Nfa) (start cursor : Nat) :
    ({} : Reached).NotBefore nfa start cursor := by
  constructor
  · intro e he
    cases he
  · intro delay hdelay
    cases hdelay

theorem NotBefore.add {r : Reached} (hr : r.NotBefore nfa start cursor) {p : ForwardPlace}
    (hp : nfa.Ready start cursor p.state) :
    (r.add nfa progress atStart p).NotBefore nfa start cursor := by
  have hensures := ensures_notBefore nfa progress atStart start cursor
  have hgood : ∀ q ∈ [p], nfa.Ready start cursor q.state := by simpa using hp
  apply explore_preserves _ _ hgood hr
  · intro p r r' hp hr hvisit
    obtain ⟨hconfirmed, haccept⟩ := (confirmed_visit p r).1 r' hvisit
    have hle := hp.of_not_unit (by simp [haccept])
    constructor
    · exact (hensures.visit hp hr.entries).1 r' hvisit
    · intro delay hdelay
      obtain rfl := Option.some.inj (hconfirmed.symm.trans hdelay)
      simpa using hle
  · intro p r next r' hp hr hvisit
    obtain ⟨hentries, hnext⟩ := (hensures.visit hp hr.entries).2 next r' hvisit
    have hconfirmed := (confirmed_visit p r).2 next r' hvisit
    exact ⟨⟨hentries, hconfirmed ▸ hr.confirmed⟩, hnext⟩

/-- Reading a unit makes a match one unit older, and lets a thread skip one unit more. -/
theorem NotBefore.addAfter {r : Reached} (hr : r.NotBefore nfa start (cursor + 1)) {e : Entry}
    (he : e.NotBefore nfa start cursor) (u : CodeUnit) :
    (r.addAfter nfa progress u e).NotBefore nfa start (cursor + 1) := by
  cases e with
  | thread state counts looks =>
    cases hs : nfa.state state
    case unit set next =>
      simp only [Reached.addAfter, hs]
      split
      · split
        · exact hr.add (Nfa.Ready.read he hs)
        · exact hr
      · exact hr
    all_goals
      simp only [Reached.addAfter, hs]
      exact hr
  | unconfirmed delay looks =>
    have holder : start + (delay + 1).toNat ≤ cursor + 1 := by
      have hstep := toNat_add_one_le delay
      simp only [Entry.NotBefore] at he
      omega
    simp only [Reached.addAfter]
    split
    · exact hr
    · constructor
      · exact hr.entries
      · intro delay' hdelay
        obtain rfl := Option.some.inj hdelay
        exact holder
    · constructor
      · exact forall_mem_addNew hr.entries holder
      · rw [confirmed_addNew]
        exact hr.confirmed
  | atEnd => exact hr

theorem NotBefore.addAllAfter {entries : List Entry}
    (hentries : ∀ e ∈ entries, e.NotBefore nfa start cursor) (u : CodeUnit) {r : Reached}
    (hr : r.NotBefore nfa start (cursor + 1)) :
    (r.addAllAfter nfa progress u entries).NotBefore nfa start (cursor + 1) := by
  induction entries generalizing r with
  | nil => exact hr
  | cons e rest ih =>
    have hfirst : (r.addAfter nfa progress u e).NotBefore nfa start (cursor + 1) :=
      hr.addAfter (hentries e (by simp)) u
    rw [Reached.addAllAfter]
    split
    · exact hfirst
    · exact ih (fun a ha => hentries a (by simp [ha])) hfirst

end Reached

namespace ForwardSubset

variable {nfa : Nfa} {start cursor : Nat} {key : ForwardSubset}

/-- A subset does not stand for an end in front of the start of a search. -/
structure NotBefore (nfa : Nfa) (start cursor : Nat) (key : ForwardSubset) : Prop where
  entries : ∀ e ∈ key.entries, e.NotBefore nfa start cursor
  confirmed : ∀ delay, key.confirmed = some delay → start + delay.toNat ≤ cursor

theorem notBefore_toSubset {r : Reached} (h : r.NotBefore nfa start cursor) (progress : Progress) :
    (r.toSubset progress).NotBefore nfa start cursor :=
  ⟨fun e he => h.entries e (List.mem_reverse.mp he), h.confirmed⟩

theorem notBefore_ofStart {s : Nat} (hready : nfa.Ready start cursor s) (atStart : Bool) :
    (ofStart nfa s atStart).NotBefore nfa start cursor :=
  notBefore_toSubset ((Reached.notBefore_empty nfa start cursor).add hready) []

theorem NotBefore.after (h : key.NotBefore nfa start cursor) (u : CodeUnit) :
    (key.after nfa u).NotBefore nfa start (cursor + 1) :=
  notBefore_toSubset (.addAllAfter h.entries u (Reached.notBefore_empty nfa start (cursor + 1))) _

/-- A report anywhere is one of a confirmed match. -/
theorem NotBefore.delay_le (h : key.NotBefore nfa start cursor)
    (hany : key.acceptance.anywhere = true) : start + key.acceptance.delay.toNat ≤ cursor := by
  obtain ⟨delay, hdelay⟩ := Option.isSome_iff_exists.mp hany
  have hvalue : key.acceptance.delay = delay := by simp [acceptance, hdelay]
  rw [hvalue]
  exact h.confirmed delay hdelay

/-- A report at the end of the text is one of a match that waits or ends there. -/
theorem NotBefore.edgeDelay_le (h : key.NotBefore nfa start cursor) (hstart : start ≤ cursor)
    (hedge : key.acceptance.atEdge = true) :
    start + key.acceptance.edgeDelay.toNat ≤ cursor := by
  obtain ⟨delay, hdelay⟩ := Option.isSome_iff_exists.mp hedge
  have hvalue : key.acceptance.edgeDelay = delay := by simp [acceptance, hdelay]
  rw [hvalue]
  obtain ⟨e, he, hend⟩ := List.exists_of_findSome?_eq_some hdelay
  have hbefore := h.entries e he
  cases e with
  | thread state counts looks => cases hend
  | unconfirmed delay' looks =>
    simp only [endDelay?, Option.ite_none_right_eq_some, Option.some.injEq] at hend
    obtain ⟨-, rfl⟩ := hend
    exact hbefore
  | atEnd =>
    obtain rfl := Option.some.inj hend
    simpa using hstart

end ForwardSubset

/-- No match that a state reports at a position ends in front of a start. -/
structure Acceptance.Fits (a : Acceptance) (size start cursor : Nat) : Prop where
  anywhere : a.anywhere = true → start + a.delay.toNat ≤ cursor
  atEdge : cursor = size → a.atEdge = true → start + a.edgeDelay.toNat ≤ cursor

namespace Dfa

theorem endAt?_bounds {text : Text} {a : Acceptance} {start cursor stop : Nat}
    (h : a.Fits text.size start cursor) (hcursor : cursor ≤ text.size)
    (hstop : endAt? text a cursor = some stop) : start ≤ stop ∧ stop ≤ text.size := by
  unfold endAt? at hstop
  split at hstop
  · rename_i hat
    have hle := h.atEdge hat.1 hat.2
    obtain rfl := Option.some.inj hstop
    omega
  · split at hstop
    · rename_i hat
      have hle := h.anywhere hat
      obtain rfl := Option.some.inj hstop
      omega
    · cases hstop

/-- A walk to the right from one state at a position comes by another, one unit at a time or past
all units of a loop at once. -/
inductive Walks (d : Dfa) (text : Text) : TableState → Nat → TableState → Nat → Prop
  | here (s : TableState) (cursor : Nat) : Walks d text s cursor s cursor
  | pass {s s' : TableState} {cursor cursor' : Nat} {r : Interval} (hloop : s.loop = some r)
    (h : Walks d text s (text.passForward r cursor) s' cursor') : Walks d text s cursor s' cursor'
  | read {s s' : TableState} {cursor cursor' id : Nat} {u : CodeUnit} (hu : text[cursor]? = some u)
    (hnext : s.next u = some id) (h : Walks d text (d.state id) (cursor + 1) s' cursor') :
    Walks d text s cursor s' cursor'

variable {d : Dfa} {text : Text}

/-- What a walk gives was reported on the way, unless it was there before. -/
theorem exists_walks_of_endFrom {s : TableState} {cursor : Nat} {last : Option Nat} {stop : Nat}
    (h : d.endFrom text s cursor last = some stop) :
    last = some stop ∨ ∃ s' cursor', d.Walks text s cursor s' cursor' ∧
      endAt? text s'.acceptance cursor' = some stop := by
  induction hn : text.size - cursor using Nat.strongRecOn generalizing s cursor last with
  | _ n ih =>
    have hlast : (endAt? text s.acceptance cursor).or last = some stop →
        last = some stop ∨ ∃ s' cursor', d.Walks text s cursor s' cursor' ∧
          endAt? text s'.acceptance cursor' = some stop := by
      intro hor
      rcases Option.or_eq_some_iff.mp hor with hend | ⟨-, hlast⟩
      · exact .inr ⟨s, cursor, .here s cursor, hend⟩
      · exact .inl hlast
    unfold endFrom at h
    dsimp only at h
    split at h
    · rename_i hlt
      have hu : text[cursor]? = some text[cursor] := by simp [hlt]
      have hread : ∀ id, s.next text[cursor] = some id →
          d.endFrom text (d.state id) (cursor + 1) ((endAt? text s.acceptance cursor).or last) =
            some stop →
          last = some stop ∨ ∃ s' cursor', d.Walks text s cursor s' cursor' ∧
            endAt? text s'.acceptance cursor' = some stop := by
        intro id hnext h
        rcases ih _ (by omega) h rfl with hor | ⟨s', cursor', hwalks, hend⟩
        · exact hlast hor
        · exact .inr ⟨s', cursor', .read hu hnext hwalks, hend⟩
      split at h
      · rename_i r hloop
        split at h
        · rename_i hskip
          rcases ih _ (by omega) h rfl with hor | ⟨s', cursor', hwalks, hend⟩
          · exact hlast hor
          · exact .inr ⟨s', cursor', .pass hloop hwalks, hend⟩
        · split at h
          · exact hread _ (by assumption) h
          · exact hlast h
      · rw [if_neg (Nat.lt_irrefl cursor)] at h
        split at h
        · exact hread _ (by assumption) h
        · exact hlast h
    · exact hlast h

variable {κ : Type} {view : Powerset κ} {initial : List κ} {keys : Array κ} {inv : κ → Nat → Prop}

/-- What reading a unit preserves of keys and their positions holds along a whole walk. -/
theorem Walks.preserves (ht : view.Tabulates initial d keys)
    (hinv : ∀ key cursor u, inv key cursor → inv (view.after key u) (cursor + 1))
    {s s' : TableState} {cursor cursor' : Nat} (h : d.Walks text s cursor s' cursor') {i : Nat}
    {key : κ} (hs : s = d.state i) (hkey : keys[i]? = some key) (hcursor : cursor ≤ text.size)
    (hstart : inv key cursor) :
    ∃ key', s'.acceptance = view.acceptance key' ∧ inv key' cursor' ∧ cursor' ≤ text.size := by
  induction h generalizing i key with
  | here s cursor =>
    subst hs
    exact ⟨key, (ht.state i key hkey).acceptance, hstart, hcursor⟩
  | @pass s s' cursor cursor' r hloop _ ih =>
    obtain ⟨hle, hsize, hall⟩ := text.passForward_spec r hcursor
    -- The key stays the same while the units of its loop are passed.
    have hstay : ∀ j, cursor ≤ j → j ≤ text.passForward r cursor → inv key j := by
      intro j hj
      induction j, hj using Nat.le_induction with
      | base => exact fun _ => hstart
      | succ j hj ihj =>
        intro hstop
        obtain ⟨u, -, hmem⟩ := hall j hj hstop
        have hafter := (ht.state i key hkey).loop r u (hs ▸ hloop) hmem
        exact hafter ▸ hinv key j u (ihj (Nat.le_of_succ_le hstop))
    exact ih hs hkey hsize (hstay _ hle (Nat.le_refl _))
  | @read s s' cursor cursor' id u hu hnext _ ih =>
    obtain ⟨hlt, -⟩ := Array.getElem?_eq_some_iff.mp hu
    obtain ⟨-, hkey'⟩ := (ht.state i key hkey).next_some u id (hs ▸ hnext)
    exact ih rfl hkey' hlt (hinv key cursor u hstart)

end Dfa

namespace Pattern.Compiled

variable {p : Pattern} {nfa : Nfa} {text : Text} {maxStates start : Nat} {dfa : Dfa}

/-- Wherever a search for an end comes by, no delay reaches back to in front of its start. -/
theorem delays_le (h : p.Compiled nfa) (htable : nfa.forwardTable maxStates = .ok dfa)
    (hstart : start ≤ text.size) {s : TableState} {cursor : Nat}
    (hwalks : dfa.Walks text
      (dfa.state (dfa.entry (ForwardSubset.entryFor nfa.context p.flags.sticky start)))
      (start - min start nfa.context) s cursor) :
    cursor ≤ text.size ∧ s.acceptance.Fits text.size start cursor := by
  obtain ⟨keys, -, hkeys⟩ := Powerset.tabulates_of_tabulate (ForwardSubset.respects nfa) htable
  obtain ⟨first, hfirst, -, hready, -⟩ := h.exists_first_state start
  have hstep : ∀ (key : ForwardSubset) (cursor : Nat) (u : CodeUnit),
      key.NotBefore nfa start cursor →
        ((ForwardSubset.powerset nfa).after key u).NotBefore nfa start (cursor + 1) :=
    fun _ _ u hkey => hkey.after u
  obtain ⟨key, hacceptance, hbefore, hcursor⟩ := hwalks.preserves hkeys hstep rfl
    (hkeys.entry _ _ hfirst) (by omega) (ForwardSubset.notBefore_ofStart hready _)
  have hacceptance : s.acceptance = key.acceptance := hacceptance
  rw [hacceptance]
  constructor
  · exact hcursor
  · exact ⟨hbefore.delay_le, fun hsize => hbefore.edgeDelay_le (hsize ▸ hstart)⟩

/-- An end that the forward table finds lies in the text, and not in front of the start. -/
theorem lastEnd?_bounds (h : p.Compiled nfa) (htable : nfa.forwardTable maxStates = .ok dfa)
    (hstart : start ≤ text.size) {stop : Nat}
    (hstop : dfa.lastEnd? text (dfa.entry (ForwardSubset.entryFor nfa.context p.flags.sticky start))
      (start - min start nfa.context) = some stop) : start ≤ stop ∧ stop ≤ text.size := by
  rcases Dfa.exists_walks_of_endFrom hstop with hnone | ⟨s, cursor, hwalks, hend⟩
  · cases hnone
  · obtain ⟨hcursor, hfits⟩ := h.delays_le htable hstart hwalks
    exact Dfa.endAt?_bounds hfits hcursor hend

end Pattern.Compiled

end UnitRegex
