import UnitRegex.Search.Explore
import UnitRegex.Table.OpenLook
import UnitRegex.Table.Subset
import Std.Data.HashSet

/-!
The subsets that the forward table is made of. One lists the live threads and the unconfirmed
matches by priority, with what each of them still has to see: its loop counters and its open
look-aheads. It also holds how far the text just read matches the look-behind bodies.
-/

namespace UnitRegex

inductive Entry where
  /-- A thread in front of a unit. -/
  | thread (state : Nat) (counts : List Nat) (looks : List OpenLook)
  /-- A match some units back whose look-aheads are still open. -/
  | unconfirmed (delay : UInt16) (looks : List OpenLook)
  /-- A match here that only counts at the end of the input. -/
  | atEnd
  deriving DecidableEq, Hashable

def Entry.isThread : Entry → Bool
  | thread _ _ _ => true
  | _ => false

structure ForwardSubset where
  /-- Threads and unconfirmed matches, highest priority first. -/
  entries : List Entry
  progress : Progress
  /-- How far back the match ended that was confirmed on the way in. All entries outrank it, and
  what it outranked is gone. -/
  confirmed : Option UInt16
  deriving DecidableEq, Hashable

/-- A place that is reached without reading a unit. -/
structure ForwardPlace where
  state : Nat
  /-- Whether the end of the input was asserted on the way. -/
  dollar : Bool
  counts : List Nat
  looks : List OpenLook
  deriving DecidableEq, Hashable

namespace ForwardPlace

def count (p : ForwardPlace) (counter : Nat) : Nat := p.counts[counter]?.getD 0

def setCount (p : ForwardPlace) (counter value : Nat) : ForwardPlace :=
  { p with counts := p.counts.set counter value }

/-- The place behind a guard, if the guard may hold. -/
def pass? (nfa : Nfa) (progress : Progress) (atStart : Bool) (p : ForwardPlace) :
    Guard → Option ForwardPlace
  | .caret => if atStart then some p else none
  | .dollar =>
    -- Past the end of the input only negative look-aheads can hold.
    if p.looks.all (·.negated) then some { p with dollar := true, looks := [] } else none
  | .behind body negated => if progress.complete nfa body != negated then some p else none
  | .ahead body negated =>
    match OpenLook.start nfa body negated p.dollar with
    | .holds => some p
    | .fails => none
    | .undecided look => some { p with looks := look.insertInto p.looks }

/-- The places one step further, highest priority first. -/
def successors (nfa : Nfa) (progress : Progress) (atStart : Bool) (p : ForwardPlace) :
    List ForwardPlace :=
  match nfa.state p.state with
  | .unit _ _ | .accept => []
  | .split targets => targets.map fun t => { p with state := t }
  | .assert guard next => ({ p with state := next }.pass? nfa progress atStart guard).toList
  | .save _ next | .unset _ _ next => [{ p with state := next }]
  | .reset counter next => [{ p.setCount counter 0 with state := next }]
  | .increment counter limit next =>
    [{ p.setCount counter (min (p.count counter + 1) limit) with state := next }]
  | .loop counter min max greedy body exit =>
    (countChoices min max greedy body exit (p.count counter)).map fun choice =>
      { p.setCount counter choice.2 with state := choice.1 }

variable {nfa : Nfa} {progress : Progress} {atStart : Bool} {p q : ForwardPlace}

theorem key_of_pass? {guard : Guard} (h : p.pass? nfa progress atStart guard = some q) :
    (q.state, q.counts) = (p.state, p.counts) := by
  cases guard <;> simp only [pass?] at h <;> split at h <;> cases h <;> rfl

/-- Where there is no guard, a place goes on wherever its state does. -/
theorem successors_of_not_assert (h : ∀ guard next, nfa.state p.state ≠ .assert guard next) :
    p.successors nfa progress atStart =
      (nfa.epsilon (p.state, p.counts)).map fun b => { p with state := b.1, counts := b.2 } := by
  unfold successors Nfa.epsilon
  cases hs : nfa.state p.state
  case assert guard next => exact absurd hs (h guard next)
  all_goals simp [setCount, count]

/-- The successors of a place are behind its state. -/
theorem mem_epsilon_of_mem_successors (h : q ∈ p.successors nfa progress atStart) :
    (q.state, q.counts) ∈ nfa.epsilon (p.state, p.counts) := by
  rcases (nfa.state p.state).assert_or with ⟨guard, next, hs⟩ | hassert
  · simp only [successors, hs] at h
    simp only [Nfa.epsilon, hs]
    exact List.mem_singleton.mpr (key_of_pass? (Option.mem_toList.mp h))
  · rw [successors_of_not_assert hassert] at h
    obtain ⟨b, hb, rfl⟩ := List.mem_map.mp h
    exact hb

section

variable {reached : List OpenLook → Prop} (hnil : reached [])
  (hinsert : ∀ looks (look : OpenLook), look.read = 0 → reached looks →
    reached (look.insertInto looks))
include hnil hinsert

theorem reached_of_pass? (hp : reached p.looks) {guard : Guard}
    (hq : p.pass? nfa progress atStart guard = some q) : reached q.looks := by
  cases guard <;> simp only [pass?] at hq
  case ahead =>
    split at hq <;> cases hq
    · exact hp
    · rename_i hstart
      exact hinsert _ _ (OpenLook.read_of_start hstart) hp
  case dollar =>
    split at hq <;> cases hq
    exact hnil
  all_goals
    split at hq <;> cases hq
    exact hp

theorem reached_of_mem_successors (hp : reached p.looks)
    (hq : q ∈ p.successors nfa progress atStart) : reached q.looks := by
  unfold successors at hq
  cases hs : nfa.state p.state <;> simp only [hs] at hq
  case unit => simp at hq
  case accept => simp at hq
  case split =>
    obtain ⟨t, -, rfl⟩ := List.mem_map.mp hq
    exact hp
  case assert guard next =>
    have hnext : reached { p with state := next }.looks := hp
    exact reached_of_pass? hnil hinsert hnext (Option.mem_toList.mp hq)
  case loop =>
    obtain ⟨choice, -, rfl⟩ := List.mem_map.mp hq
    exact hp
  all_goals exact List.mem_singleton.mp hq ▸ hp

end

/-- There are finitely many places with such counters and look-aheads. -/
theorem finitely (nfa : Nfa) (bound : Nat) {reached : List OpenLook → Prop}
    (h : Finitely reached) : Finitely fun p : ForwardPlace =>
      p.state < nfa.size ∧ BoundedCounts bound p.counts ∧ reached p.looks := by
  have hparts := ((Finitely.lt nfa.size).prod (.prod .bool (.prod (.boundedCounts bound) h))).image
    fun parts => (⟨parts.1, parts.2.1, parts.2.2.1, parts.2.2.2⟩ : ForwardPlace)
  exact hparts.mono fun p hp =>
    ⟨(p.state, p.dollar, p.counts, p.looks), ⟨hp.1, trivial, hp.2.1, hp.2.2⟩, rfl⟩

end ForwardPlace

/-- What has been reached at one position, the newest entry first. -/
structure Reached where
  entries : List Entry := []
  confirmed : Option UInt16 := none
  seen : Std.HashSet ForwardPlace := ∅

namespace Reached

def addNew (r : Reached) (e : Entry) : Reached :=
  if r.entries.contains e then r else { r with entries := e :: r.entries }

theorem seen_addNew (r : Reached) (e : Entry) : (r.addNew e).seen = r.seen := by
  unfold addNew
  split <;> rfl

/-- Notes what is found at a place. A match with nothing left to check ends the exploration, since
all that waits has a lower priority. -/
def visit (nfa : Nfa) (progress : Progress) (atStart : Bool) (p : ForwardPlace) (r : Reached) :
    Visit ForwardPlace Reached :=
  if r.seen.contains p then .go [] r
  else
    let r := { r with seen := r.seen.insert p }
    match nfa.state p.state with
    | .unit _ _ =>
      if p.dollar then .go [] r
      else .go [] { r with entries := .thread p.state p.counts p.looks :: r.entries }
    | .accept =>
      if p.dollar then .go [] (r.addNew .atEnd)
      else if p.looks.isEmpty then .stop { r with confirmed := some 0 }
      else .go [] (r.addNew (.unconfirmed 0 p.looks))
    | _ => .go (p.successors nfa progress atStart) r

theorem visit_eq_go {nfa : Nfa} {progress : Progress} {atStart : Bool} {p : ForwardPlace}
    {next : List ForwardPlace} {r r' : Reached}
    (h : visit nfa progress atStart p r = .go next r') :
    (next = [] ∨ next = p.successors nfa progress atStart ∧ p ∉ r.seen ∧ p ∈ r'.seen) ∧
      ∀ q ∈ r.seen, q ∈ r'.seen := by
  have hset : ∀ q ∈ r.seen, q ∈ r.seen.insert p := fun q hq =>
    Std.HashSet.mem_insert.mpr (.inr hq)
  simp only [visit] at h
  split at h
  · cases h
    exact ⟨.inl rfl, fun q hq => hq⟩
  · rename_i hfresh
    split at h
    · split at h <;> cases h <;> exact ⟨.inl rfl, hset⟩
    · split at h
      · cases h
        exact ⟨.inl rfl, by rwa [seen_addNew]⟩
      · split at h <;> cases h
        exact ⟨.inl rfl, by rwa [seen_addNew]⟩
    · cases h
      exact ⟨.inr ⟨rfl, hfresh, Std.HashSet.mem_insert_self⟩, hset⟩

instance (nfa : Nfa) (progress : Progress) (atStart : Bool) :
    Exhausts (visit nfa progress atStart) := by
  refine exhausts_of_keys id (fun r p => p ∈ r.seen)
    (ForwardPlace.successors nfa progress atStart) (fun p r next r' => visit_eq_go) fun stack => ?_
  obtain ⟨bound, hlimit, hcounts⟩ := nfa.exists_bound (stack.map (·.counts))
  obtain ⟨reached, hfinitely, hreached, hinsert⟩ :=
    OpenLook.exists_closed ([] :: stack.map (·.looks))
  refine ⟨fun p => BoundedCounts bound p.counts ∧ reached p.looks, _,
    ForwardPlace.finitely nfa bound hfinitely, fun p hp => ⟨?_, ?_⟩, fun p hp q hq => ?_⟩
  · exact hcounts _ (List.mem_map_of_mem hp)
  · exact hreached _ (List.mem_cons_of_mem _ (List.mem_map_of_mem hp))
  · have hbehind := ForwardPlace.mem_epsilon_of_mem_successors hq
    have hlooks := ForwardPlace.reached_of_mem_successors (hreached [] List.mem_cons_self)
      (fun looks look _ => hinsert looks look) hp.2 hq
    exact ⟨⟨Nfa.bounded_of_mem_epsilon hlimit hp.1 hbehind, hlooks⟩,
      Nfa.lt_size_of_mem_epsilon hbehind, hp⟩

/-- Explores what a place leads to. -/
def add (nfa : Nfa) (progress : Progress) (atStart : Bool) (r : Reached) (p : ForwardPlace) :
    Reached :=
  explore (visit nfa progress atStart) [p] r

/-- What follows from an entry when a unit is read. -/
def addAfter (nfa : Nfa) (progress : Progress) (u : CodeUnit) (r : Reached) :
    Entry → Reached
  | .thread state counts looks =>
    match nfa.state state with
    | .unit set next =>
      if set.contains u then
        match OpenLook.allAfter? nfa u looks with
        | some looks => r.add nfa progress false ⟨next, false, counts, looks⟩
        | none => r
      else r
    | _ => r
  | .unconfirmed delay looks =>
    match OpenLook.allAfter? nfa u looks with
    | none => r
    | some [] => { r with confirmed := some (delay + 1) }
    | some looks => r.addNew (.unconfirmed (delay + 1) looks)
  | .atEnd => r

/-- Follows the entries in order until one confirms a match. -/
def addAllAfter (nfa : Nfa) (progress : Progress) (u : CodeUnit) (r : Reached) :
    List Entry → Reached
  | [] => r
  | e :: rest =>
    let r := r.addAfter nfa progress u e
    if r.confirmed.isSome then r else r.addAllAfter nfa progress u rest

/-- The subset that was reached. Progress only matters to threads. -/
def toSubset (progress : Progress) (r : Reached) : ForwardSubset :=
  let entries := r.entries.reverse
  ⟨entries, if entries.any Entry.isThread then progress else [], r.confirmed⟩

end Reached

namespace ForwardSubset

def ofStart (nfa : Nfa) (state : Nat) (atStart : Bool) : ForwardSubset :=
  let first : ForwardPlace := ⟨state, false, List.replicate nfa.counters 0, []⟩
  (Reached.add nfa [] atStart {} first).toSubset []

/-- One subset for every number of skipped units and one for a search from the start of the input;
the anchored ones come first. -/
def initial (nfa : Nfa) : List ForwardSubset :=
  [nfa.anchored, nfa.unanchored].flatMap fun entries =>
    entries.map (fun s => ofStart nfa s false) ++
      (entries.take 1).map fun s => ofStart nfa s true

def after (nfa : Nfa) (key : ForwardSubset) (u : CodeUnit) : ForwardSubset :=
  let progress := key.progress.after nfa u
  (Reached.addAllAfter nfa progress u {} key.entries).toSubset progress

/-- The sets that the next unit is tested against. -/
def nextSets (nfa : Nfa) (key : ForwardSubset) : List CharSet :=
  let ofEntry : Entry → List CharSet
    | .thread state _ looks =>
      (match nfa.state state with
        | .unit set _ => [set]
        | _ => []) ++ looks.flatMap (·.nextSets nfa)
    | .unconfirmed _ looks => looks.flatMap (·.nextSets nfa)
    | .atEnd => []
  key.entries.flatMap ofEntry ++
    if key.entries.any Entry.isThread then nfa.lookBehinds.flatten else []

/-- The delay of a match that counts if the input ends here. Open positive look-aheads fail then,
and open negative ones hold. -/
def endDelay? : Entry → Option UInt16
  | .atEnd => some 0
  | .unconfirmed delay looks => if looks.all (·.negated) then some delay else none
  | .thread _ _ _ => none

def acceptance (key : ForwardSubset) : Acceptance :=
  let atEnd := key.entries.findSome? endDelay?
  { anywhere := key.confirmed.isSome
    atEdge := atEnd.isSome
    delay := key.confirmed.getD 0
    edgeDelay := atEnd.getD 0 }

def powerset (nfa : Nfa) : Powerset ForwardSubset :=
  { nextSets := nextSets nfa
    after := after nfa
    dead := fun key => key.entries.isEmpty && key.confirmed.isNone
    acceptance := acceptance
    resultIds := fun _ => {} }

/-- The number of the initial subset for a search from an offset. -/
def entryFor (context : Nat) (anchored : Bool) (offset : Nat) : Nat :=
  (if anchored then 0 else context + 2) + if offset = 0 then context + 1 else min offset context

end ForwardSubset

/-- The table that finds the ends of matches. -/
def Nfa.forwardTable (nfa : Nfa) (maxStates : Nat) : Except Overflow Dfa :=
  (ForwardSubset.powerset nfa).tabulate (ForwardSubset.initial nfa) maxStates

end UnitRegex
