import Mathlib.Data.Set.Finite.List
import UnitRegex.Proofs.Pattern.WellFormed
import UnitRegex.Proofs.Search.LoopCounters
import UnitRegex.Proofs.Table.BackwardTable
import UnitRegex.Proofs.Table.Beginnings
import UnitRegex.Proofs.Table.ForwardKeys

/-!
The counters of the threads in the keys of the tables. The threads of a key come from zero with the
units read since an initial key, and so does whatever is explored between two keys. No key lists
anything twice, so a table has finitely many keys.
-/

namespace UnitRegex

/-! ### Finitely many values -/

namespace Finitely

variable {α : Type} {P Q : α → Prop}

theorem or (hP : Finitely P) (hQ : Finitely Q) : Finitely fun a => P a ∨ Q a := by
  obtain ⟨l, hl⟩ := hP
  obtain ⟨m, hm⟩ := hQ
  exact ⟨l ++ m, fun a ha => List.mem_append.mpr (ha.imp (hl a) (hm a))⟩

theorem nodup (hP : Finitely P) : Finitely fun l : List α => l.Nodup ∧ ∀ a ∈ l, P a := by
  obtain ⟨all, hall⟩ := hP
  refine (Finitely.lists ⟨all, hall⟩ all.length).mono fun l hl => ⟨?_, hl.2⟩
  exact (List.subperm_of_subset hl.1 fun a ha => hall a (hl.2 a ha)).length_le

theorem uint16 : Finitely fun _ : UInt16 => True :=
  ((Finitely.lt UInt16.size).image UInt16.ofNat).mono fun n _ => ⟨n.toNat, n.toNat_lt, by simp⟩

theorem option (hP : Finitely P) : Finitely fun o : Option α => ∀ a, o = some a → P a := by
  obtain ⟨l, hl⟩ := hP
  refine ⟨none :: l.map some, fun o ho => ?_⟩
  cases o with
  | none => simp
  | some a => simpa using hl a (ho a rfl)

theorem finite (hP : Finitely P) : {a | P a}.Finite := by
  obtain ⟨l, hl⟩ := hP
  exact (List.finite_toSet l).subset hl

end Finitely

theorem eraseReps_of_nodup {α : Type} [BEq α] [LawfulBEq α] {l : List α} (h : l.Nodup) :
    l.eraseReps = l := by
  induction l with
  | nil => rfl
  | cons a l ih =>
    cases l with
    | nil => rfl
    | cons b l =>
      obtain ⟨ha, hl⟩ := List.nodup_cons.mp h
      have hne : (a == b) = false := by
        rw [beq_eq_false_iff_ne]
        rintro rfl
        exact ha List.mem_cons_self
      rw [eraseReps_cons_cons, hne, ih hl]
      rfl

/-- All runs together count up to some bound. -/
theorem Nfa.exists_bound_of_comes (nfa : Nfa) :
    ∃ bound, ∀ n a, nfa.Comes n a → BoundedCounts bound a.2 := by
  obtain ⟨bound, hlimit, hstart⟩ := nfa.exists_bound [List.replicate nfa.counters 0]
  refine ⟨bound, fun n a h => ?_⟩
  induction h with
  | start => exact hstart _ List.mem_cons_self
  | pass _ hb ih => exact bounded_of_mem_epsilon hlimit ih hb
  | read _ _ ih => exact ih

/-! ### Forward keys -/

/-- A place that comes from zero with `n` units. -/
def ForwardPlace.Within (nfa : Nfa) (n : Nat) (reached : List OpenLook → Prop) (p : ForwardPlace) :
    Prop :=
  nfa.Comes n (p.state, p.counts) ∧ reached p.looks

/-- An entry that comes from zero with `n` units. -/
def Entry.Within (nfa : Nfa) (n : Nat) (reached : List OpenLook → Prop) : Entry → Prop
  | .thread state counts looks =>
    (∃ set next, nfa.state state = .unit set next) ∧ nfa.Comes n (state, counts) ∧ reached looks
  | .unconfirmed _ looks => reached looks
  | .atEnd => True

namespace Reached

variable {nfa : Nfa} {progress : Progress} {atStart : Bool} {n : Nat}
  {reached : List OpenLook → Prop}

/-- What has been reached at a position comes from zero with `n` units, and nothing is listed twice,
because the place of every thread has been seen. -/
structure Within (nfa : Nfa) (n : Nat) (reached : List OpenLook → Prop) (r : Reached) : Prop where
  entries : ∀ e ∈ r.entries, e.Within nfa n reached
  seen : ∀ p ∈ r.seen, p.Within nfa n reached
  distinct : r.entries.Nodup
  threads : ∀ state counts looks, Entry.thread state counts looks ∈ r.entries →
    ⟨state, false, counts, looks⟩ ∈ r.seen

theorem within_empty : ({} : Reached).Within nfa n reached :=
  ⟨by simp, by simp, by simp, by simp⟩

theorem Within.confirm {r : Reached} (hr : r.Within nfa n reached) (confirmed : Option UInt16) :
    { r with confirmed := confirmed }.Within nfa n reached :=
  ⟨hr.entries, hr.seen, hr.distinct, hr.threads⟩

theorem Within.addNew {r : Reached} (hr : r.Within nfa n reached) {e : Entry}
    (he : e.Within nfa n reached) (hthread : e.isThread = false) :
    (r.addNew e).Within nfa n reached := by
  unfold Reached.addNew
  split
  · exact hr
  · rename_i hnew
    refine ⟨List.forall_mem_cons.mpr ⟨he, hr.entries⟩, hr.seen,
      List.nodup_cons.mpr ⟨by simpa using hnew, hr.distinct⟩, fun state counts looks hmem => ?_⟩
    rcases List.mem_cons.mp hmem with rfl | hmem
    · cases hthread
    · exact hr.threads state counts looks hmem

theorem Within.see {r : Reached} (hr : r.Within nfa n reached) {p : ForwardPlace}
    (hp : p.Within nfa n reached) : { r with seen := r.seen.insert p }.Within nfa n reached := by
  refine ⟨hr.entries, fun q hq => ?_, hr.distinct, fun state counts looks hmem =>
    Std.HashSet.mem_insert.mpr (.inr (hr.threads state counts looks hmem))⟩
  rcases Std.HashSet.mem_insert.mp hq with hq | hq
  · exact beq_iff_eq.mp hq ▸ hp
  · exact hr.seen q hq

section

variable (hnil : reached [])
  (hinsert : ∀ looks (look : OpenLook), reached looks → reached (look.insertInto looks))
include hnil hinsert

theorem Within.visit {r : Reached} (hr : r.Within nfa n reached) {p : ForwardPlace}
    (hp : p.Within nfa n reached) :
    (∀ r', visit nfa progress atStart p r = .stop r' → r'.Within nfa n reached) ∧
      ∀ next r', Reached.visit nfa progress atStart p r = .go next r' →
        r'.Within nfa n reached ∧ ∀ q ∈ next, q.Within nfa n reached := by
  by_cases hseen : p ∈ r.seen
  · rw [visit_seen hseen]
    simp [hr]
  have hsee := hr.see hp
  rcases (nfa.state p.state).unit_or with ⟨set, next, hs⟩ | hunit
  · rw [visit_unit hseen hs]
    split
    · simp [hsee]
    · rename_i hdollar
      have hplace : p = ⟨p.state, false, p.counts, p.looks⟩ := by
        rw [← Bool.eq_false_of_not_eq_true hdollar]
      have hthread : Reached.Within nfa n reached
          ⟨.thread p.state p.counts p.looks :: r.entries, r.confirmed, r.seen.insert p⟩ := by
        refine ⟨List.forall_mem_cons.mpr ⟨⟨⟨set, next, hs⟩, hp⟩, hsee.entries⟩, hsee.seen,
          List.nodup_cons.mpr ⟨fun hmem => ?_, hr.distinct⟩, fun state counts looks hmem => ?_⟩
        · exact hseen (hplace ▸ hr.threads _ _ _ hmem)
        · rcases List.mem_cons.mp hmem with heq | hmem
          · obtain ⟨rfl, rfl, rfl⟩ := Entry.thread.inj heq
            exact hplace ▸ Std.HashSet.mem_insert_self
          · exact hsee.threads state counts looks hmem
      simp [hthread]
  · by_cases haccept : nfa.state p.state = .accept
    · have hatEnd := hsee.addNew (e := .atEnd) trivial rfl
      have hunconfirmed := hsee.addNew (e := .unconfirmed 0 p.looks) hp.2 rfl
      have hconfirmed := hsee.confirm (some 0)
      rw [visit_accept hseen haccept]
      dsimp only
      split
      · simp [hatEnd]
      · split
        · simp [hconfirmed]
        · simp [hunconfirmed]
    · rw [visit_other hseen hunit haccept]
      refine ⟨by simp, fun next r' heq => ?_⟩
      obtain ⟨rfl, rfl⟩ := Visit.go.inj heq
      refine ⟨hsee, fun q hq => ⟨hp.1.pass (ForwardPlace.mem_epsilon_of_mem_successors hq), ?_⟩⟩
      exact ForwardPlace.reached_of_mem_successors hnil (fun looks look _ => hinsert looks look)
        hp.2 hq

theorem Within.add {r : Reached} (hr : r.Within nfa n reached) {p : ForwardPlace}
    (hp : p.Within nfa n reached) : (r.add nfa progress atStart p).Within nfa n reached := by
  have hstack : ∀ q ∈ [p], q.Within nfa n reached := by simpa using hp
  exact explore_preserves (fun q r r' hq hr => (hr.visit hnil hinsert hq).1 r')
    (fun q r next r' hq hr => (hr.visit hnil hinsert hq).2 next r') hstack hr

theorem reached_of_allAfter? {u : CodeUnit} {looks looks' : List OpenLook}
    (h : OpenLook.allAfter? nfa u looks = some looks') : reached looks' := by
  induction looks generalizing looks' with
  | nil =>
    obtain rfl := Option.some.inj h
    exact hnil
  | cons p rest ih =>
    unfold OpenLook.allAfter? at h
    split at h
    · cases h
    · cases h
    · rename_i looks _ hrest
      obtain rfl := Option.some.inj h
      exact ih hrest
    · rename_i q looks _ hrest
      obtain rfl := Option.some.inj h
      exact hinsert _ _ (ih hrest)

/-- What follows from an entry has read one unit more. -/
theorem Within.addAfter {r : Reached} (hr : r.Within nfa (n + 1) reached) {e : Entry}
    (he : e.Within nfa n reached) (u : CodeUnit) :
    (r.addAfter nfa progress u e).Within nfa (n + 1) reached := by
  unfold Reached.addAfter
  split
  · split
    · rename_i hs
      split
      · split
        · rename_i hlooks
          exact hr.add hnil hinsert ⟨he.2.1.read hs, reached_of_allAfter? hnil hinsert hlooks⟩
        · exact hr
      · exact hr
    · exact hr
  · split
    · exact hr
    · exact hr.confirm _
    · rename_i hlooks
      exact hr.addNew (reached_of_allAfter? hnil hinsert hlooks) rfl
  · exact hr

theorem Within.addAllAfter {r : Reached} (hr : r.Within nfa (n + 1) reached) {entries : List Entry}
    (hentries : ∀ e ∈ entries, e.Within nfa n reached) (u : CodeUnit) :
    (r.addAllAfter nfa progress u entries).Within nfa (n + 1) reached := by
  induction entries generalizing r with
  | nil => exact hr
  | cons e rest ih =>
    obtain ⟨he, hrest⟩ := List.forall_mem_cons.mp hentries
    have hafter : (r.addAfter nfa progress u e).Within nfa (n + 1) reached :=
      hr.addAfter hnil hinsert he u
    rw [Reached.addAllAfter]
    split
    · exact hafter
    · exact ih hafter hrest

end

end Reached

namespace ForwardSubset

variable {nfa : Nfa} {n : Nat} {reached : List OpenLook → Prop}

/-- The places that are explored from a state where a match may start. -/
def placesFrom (nfa : Nfa) (state : Nat) (atStart : Bool) : Std.HashSet ForwardPlace :=
  (Reached.add nfa [] atStart {} ⟨state, false, List.replicate nfa.counters 0, []⟩).seen

/-- The places that are explored when a unit is read. -/
def placesAfter (nfa : Nfa) (key : ForwardSubset) (u : CodeUnit) : Std.HashSet ForwardPlace :=
  (Reached.addAllAfter nfa (key.progress.after nfa u) u {} key.entries).seen

/-- A key whose entries come from zero with `n` units, and that lists nothing twice. -/
structure Within (nfa : Nfa) (n : Nat) (reached : List OpenLook → Prop) (key : ForwardSubset) :
    Prop where
  entries : ∀ e ∈ key.entries, e.Within nfa n reached
  distinct : key.entries.Nodup
  progress : key.progress.Nodup

/-- The counters of all threads of a key are those of the loops they are in, and no state that is
passed when a unit is read counts too far. -/
structure InLoops (nfa : Nfa) (key : ForwardSubset) : Prop where
  threads : ∀ state counts looks, Entry.thread state counts looks ∈ key.entries →
    nfa.KeepsCounts state counts
  passed : ∀ u, ∀ p ∈ placesAfter nfa key u, nfa.CountFits p.state p.counts

theorem within_toSubset {r : Reached} (hr : r.Within nfa n reached) {progress : Progress}
    (hprogress : progress.Nodup) : (r.toSubset progress).Within nfa n reached := by
  refine ⟨fun e he => hr.entries e (List.mem_reverse.mp he), List.nodup_reverse.mpr hr.distinct, ?_⟩
  unfold Reached.toSubset
  dsimp only
  split
  · exact hprogress
  · exact List.nodup_nil

section

variable (hnil : reached [])
  (hinsert : ∀ looks (look : OpenLook), reached looks → reached (look.insertInto looks))
include hnil hinsert

theorem within_ofStart (state : Nat) (atStart : Bool) :
    (ofStart nfa state atStart).Within nfa 0 reached :=
  within_toSubset (Reached.within_empty.add hnil hinsert ⟨.start 0 state, hnil⟩) List.nodup_nil

theorem within_of_mem_initial {key : ForwardSubset} (h : key ∈ initial nfa) :
    key.Within nfa 0 reached := by
  obtain ⟨entries, -, hkey⟩ := List.mem_flatMap.mp h
  rcases List.mem_append.mp hkey with hkey | hkey <;>
    obtain ⟨state, -, rfl⟩ := List.mem_map.mp hkey <;> exact within_ofStart hnil hinsert _ _

theorem Within.after {key : ForwardSubset} (h : key.Within nfa n reached) (u : CodeUnit) :
    (after nfa key u).Within nfa (n + 1) reached := by
  refine within_toSubset (Reached.within_empty.addAllAfter hnil hinsert h.entries u) ?_
  exact Progress.nodup_of_pairwise_before (Progress.pairwise_after nfa key.progress u)

theorem Within.inLoops {key : ForwardSubset} (h : key.Within nfa n reached)
    (hloops : nfa.CountsWithin 0 nfa.size 0 nfa.counters) (hn : n + 2 < 2 ^ 32) :
    key.InLoops nfa := by
  refine ⟨fun state counts looks hmem => ?_, fun u p hp => ?_⟩
  · obtain ⟨⟨set, next, hs⟩, hcomes, -⟩ := h.entries _ hmem
    exact hloops.keepsCounts hcomes (by rw [hs]; rfl)
  · have hcomes : ∀ q ∈ placesAfter nfa key u, nfa.Comes (n + 1) (q.state, q.counts) := fun q hq =>
      ((Reached.within_empty.addAllAfter hnil hinsert h.entries u).seen q hq).1
    exact hloops.countFits (hcomes p hp) hn

/-- A key that is reached from an initial one comes from zero with the units read. -/
theorem within_foldl_after {first : ForwardSubset} (hfirst : first ∈ initial nfa)
    (w : List CodeUnit) : (w.foldl (ForwardSubset.after nfa) first).Within nfa w.length reached := by
  induction w using List.reverseRecOn with
  | nil => exact within_of_mem_initial hnil hinsert hfirst
  | append_singleton w u ih =>
    rw [List.foldl_append, List.length_append]
    exact ih.after hnil hinsert u

end

/-- There are finitely many keys. -/
theorem finitely_within (hreached : Finitely reached) :
    Finitely fun key : ForwardSubset => ∃ n, key.Within nfa n reached := by
  obtain ⟨bound, hbound⟩ := nfa.exists_bound_of_comes
  have hthread := (((Finitely.lt nfa.size).prod (.prod (.boundedCounts bound) hreached)).image
    fun parts => Entry.thread parts.1 parts.2.1 parts.2.2)
  have hunconfirmed := (Finitely.uint16.prod hreached).image fun parts =>
    Entry.unconfirmed parts.1 parts.2
  have hentry : Finitely fun e : Entry => ∃ n, e.Within nfa n reached := by
    refine ((hthread.or hunconfirmed).or (Q := fun e => e = .atEnd) ⟨[.atEnd], by simp⟩).mono
      fun e ⟨n, he⟩ => ?_
    cases e with
    | thread state counts looks =>
      obtain ⟨⟨set, next, hs⟩, hcomes, hlooks⟩ := he
      have hlt : state < nfa.size := by
        by_contra hge
        rw [Nfa.state_of_size_le (Nat.le_of_not_lt hge)] at hs
        cases hs
      exact .inl (.inl ⟨(state, counts, looks), ⟨hlt, hbound _ _ hcomes, hlooks⟩, rfl⟩)
    | unconfirmed delay looks => exact .inl (.inr ⟨(delay, looks), ⟨trivial, he⟩, rfl⟩)
    | atEnd => exact .inr rfl
  have hparts := (hentry.nodup.prod ((Finitely.uint16.prod Finitely.uint16).nodup.prod
    Finitely.uint16.option)).image fun parts =>
      (⟨parts.1, parts.2.1, parts.2.2⟩ : ForwardSubset)
  refine hparts.mono fun key ⟨n, hkey⟩ => ⟨(key.entries, key.progress, key.confirmed), ?_, rfl⟩
  exact ⟨⟨hkey.distinct, fun e he => ⟨n, hkey.entries e he⟩⟩,
    ⟨hkey.progress, fun _ _ => ⟨trivial, trivial⟩⟩, fun _ _ => trivial⟩

end ForwardSubset

/-! ### Backward keys -/

namespace BackwardSubset

variable {nfa : Nfa} {atEnd : Bool} {n : Nat}

/-- The places from which a unit that is read leads on. -/
def placesBehind (nfa : Nfa) (key : BackwardSubset) (u : CodeUnit) : List BackwardPlace :=
  key.threads.filterMap fun t =>
    match nfa.state t.1 with
    | .unit set next =>
      if set.contains u then some (⟨next, false, t.2⟩ : BackwardPlace) else none
    | _ => none

/-- The places that are explored from some places on. -/
def placesFrom (nfa : Nfa) (places : List BackwardPlace) (atEnd : Bool) :
    Std.HashSet BackwardPlace :=
  (explore (visit nfa atEnd) places (∅, empty)).1

/-- A unit is read by exploring from the places behind it. -/
theorem after_eq (nfa : Nfa) (key : BackwardSubset) (u : CodeUnit) :
    after nfa key u = ofPlaces nfa (placesBehind nfa key u) false := rfl

/-- A key whose threads come from zero with `n` units, and that lists none of them twice. -/
structure Within (nfa : Nfa) (n : Nat) (key : BackwardSubset) : Prop where
  threads : ∀ t ∈ key.threads, (∃ set next, nfa.state t.1 = .unit set next) ∧ nfa.Comes n t
  distinct : key.threads.Nodup

/-- The counters of all threads of a key are those of the loops they are in, and no state that is
passed when a unit is read counts too far. -/
structure InLoops (nfa : Nfa) (key : BackwardSubset) : Prop where
  threads : ∀ t ∈ key.threads, nfa.KeepsCounts t.1 t.2
  passed : ∀ u, ∀ p ∈ placesFrom nfa (placesBehind nfa key u) false, nfa.CountFits p.state p.counts

/-- What is found at a position comes from zero with `n` units. The place of every thread has been
seen. -/
structure Finds (nfa : Nfa) (n : Nat) (found : Std.HashSet BackwardPlace × BackwardSubset) :
    Prop where
  key : found.2.Within nfa n
  seen : ∀ p ∈ found.1, nfa.Comes n (p.state, p.counts)
  threads : ∀ t ∈ found.2.threads, ⟨t.1, false, t.2⟩ ∈ found.1

theorem Finds.visit {found found' : Std.HashSet BackwardPlace × BackwardSubset}
    (h : Finds nfa n found) {p : BackwardPlace} (hp : nfa.Comes n (p.state, p.counts))
    {next : List BackwardPlace} (hvisit : visit nfa atEnd p found = .go next found') :
    Finds nfa n found' ∧ ∀ q ∈ next, nfa.Comes n (q.state, q.counts) := by
  obtain ⟨seen, key⟩ := found
  simp only [BackwardSubset.visit] at hvisit
  split at hvisit
  · cases hvisit
    exact ⟨h, by simp⟩
  · rename_i hfresh
    have hseen : ∀ q ∈ seen.insert p, nfa.Comes n (q.state, q.counts) := by
      intro q hq
      rcases Std.HashSet.mem_insert.mp hq with hq | hq
      · exact beq_iff_eq.mp hq ▸ hp
      · exact h.seen q hq
    have hthreads : ∀ t ∈ key.threads, ⟨t.1, false, t.2⟩ ∈ seen.insert p := fun t ht =>
      Std.HashSet.mem_insert.mpr (.inr (h.threads t ht))
    split at hvisit <;> cases hvisit
    · rename_i set next hs
      split
      · exact ⟨⟨h.key, hseen, hthreads⟩, by simp⟩
      · rename_i hcaret
        have hplace : p = ⟨p.state, false, p.counts⟩ := by
          rw [← Bool.eq_false_of_not_eq_true hcaret]
        refine ⟨⟨⟨List.forall_mem_cons.mpr ⟨⟨⟨set, next, hs⟩, hp⟩, h.key.threads⟩,
          List.nodup_cons.mpr ⟨fun hmem => ?_, h.key.distinct⟩⟩, hseen,
          List.forall_mem_cons.mpr ⟨hplace ▸ Std.HashSet.mem_insert_self, hthreads⟩⟩, by simp⟩
        exact hfresh (hplace ▸ h.threads _ hmem)
    · refine ⟨⟨?_, hseen, ?_⟩, by simp⟩ <;> split
      · exact ⟨h.key.threads, h.key.distinct⟩
      · exact ⟨h.key.threads, h.key.distinct⟩
      · exact hthreads
      · exact hthreads
    · exact ⟨⟨h.key, hseen, hthreads⟩, fun q hq =>
        hp.pass (BackwardPlace.mem_epsilon_of_mem_successors hq)⟩

theorem finds_explore {places : List BackwardPlace}
    (hplaces : ∀ p ∈ places, nfa.Comes n (p.state, p.counts)) :
    Finds nfa n (explore (visit nfa atEnd) places (∅, empty)) := by
  have hempty : Finds nfa n (∅, empty) :=
    ⟨⟨by simp [empty], by simp [empty]⟩, by simp, by simp [empty]⟩
  refine explore_preserves (fun p found found' _ _ hstop => ?_)
    (fun p found next found' hp hfound hvisit => hfound.visit hp hvisit) hplaces hempty
  obtain ⟨seen, key⟩ := found
  simp only [visit] at hstop
  split at hstop
  · cases hstop
  · split at hstop <;> cases hstop

theorem within_ofPlaces {places : List BackwardPlace}
    (hplaces : ∀ p ∈ places, nfa.Comes n (p.state, p.counts)) :
    (ofPlaces nfa places atEnd).Within nfa n := by
  have hfinds : Finds nfa n (explore (visit nfa atEnd) places (∅, empty)) := finds_explore hplaces
  have hsorted : ((explore (visit nfa atEnd) places (∅, empty)).2.threads.mergeSort threadLe).Nodup :=
    (List.mergeSort_perm _ _).nodup_iff.mpr hfinds.key.distinct
  refine ⟨fun t ht => hfinds.key.threads t ?_, ?_⟩
  · simpa only [ofPlaces, mem_eraseReps, List.mem_mergeSort] using ht
  · simpa only [ofPlaces, eraseReps_of_nodup hsorted] using hsorted

theorem comes_of_mem_placesBehind {key : BackwardSubset} (h : key.Within nfa n) {u : CodeUnit}
    {p : BackwardPlace} (hp : p ∈ placesBehind nfa key u) :
    nfa.Comes (n + 1) (p.state, p.counts) := by
  obtain ⟨t, ht, hnext⟩ := List.mem_filterMap.mp hp
  obtain ⟨⟨set, next, hs⟩, hcomes⟩ := h.threads t ht
  simp only [hs] at hnext
  split at hnext <;> cases hnext
  exact hcomes.read hs

theorem Within.inLoops {key : BackwardSubset} (h : key.Within nfa n)
    (hloops : nfa.CountsWithin 0 nfa.size 0 nfa.counters) (hn : n + 2 < 2 ^ 32) :
    key.InLoops nfa := by
  refine ⟨fun t ht => ?_, fun u p hp => ?_⟩
  · obtain ⟨⟨set, next, hs⟩, hcomes⟩ := h.threads t ht
    exact hloops.keepsCounts hcomes (by rw [hs]; rfl)
  · exact hloops.countFits ((finds_explore fun p => comes_of_mem_placesBehind h).seen p hp) hn

theorem comes_first : ∀ p ∈ [(⟨nfa.start, false, List.replicate nfa.counters 0⟩ : BackwardPlace)],
    nfa.Comes 0 (p.state, p.counts) := by
  simpa using Nfa.Comes.start 0 nfa.start

/-- A key that is reached from an initial one comes from zero with the units read. -/
theorem within_foldl_after {first : BackwardSubset} (hfirst : first ∈ initial nfa)
    (w : List CodeUnit) : (w.foldl (after nfa) first).Within nfa w.length := by
  induction w using List.reverseRecOn with
  | nil => rcases List.mem_pair.mp hfirst with rfl | rfl <;> exact within_ofPlaces comes_first
  | append_singleton w u ih =>
    rw [List.foldl_append, List.length_append]
    exact within_ofPlaces fun p => comes_of_mem_placesBehind ih

/-- There are finitely many keys. -/
theorem finitely_within : Finitely fun key : BackwardSubset => ∃ n, key.Within nfa n := by
  obtain ⟨bound, hbound⟩ := nfa.exists_bound_of_comes
  have hthreads := ((Finitely.lt nfa.size).prod (.boundedCounts bound)).nodup
  have hparts := (hthreads.prod (Finitely.bool.prod .bool)).image fun parts =>
    (⟨parts.1, parts.2.1, parts.2.2⟩ : BackwardSubset)
  refine hparts.mono fun key ⟨n, hkey⟩ =>
    ⟨(key.threads, key.starts, key.startsAtEdge), ⟨⟨hkey.distinct, fun t ht => ?_⟩, trivial, trivial⟩,
      rfl⟩
  obtain ⟨⟨set, next, hs⟩, hcomes⟩ := hkey.threads t ht
  refine ⟨?_, hbound n t hcomes⟩
  by_contra hge
  rw [Nfa.state_of_size_le (Nat.le_of_not_lt hge)] at hs
  cases hs

end BackwardSubset

/-! ### Automata of patterns -/

/-- In a search for a pattern over fewer than `2 ^ 31` units, and in every key that such a text leads
to from an initial one, the counters of a thread are those of the loops it is in and within their
limits. On the way no state counts beyond 32 bits. Over all texts there are finitely many keys. -/
theorem Nfa.counters_inLoops_of_build {s : Source} {q : NumberedPattern}
    (hparse : s.parse = .ok q.toPattern) {config : Config} {direction : Direction} {nfa : Nfa}
    (h : Nfa.build q config direction = .ok nfa) :
    (∀ (text : Text) (start stop : Nat) (anchored : Bool), text.size < 2 ^ 31 →
      ∀ cursor current spare found,
        nfa.Calls text start (min stop text.size) anchored cursor current spare found →
          nfa.findSlots text start stop anchored =
              nfa.runThreads text start (min stop text.size) anchored cursor current spare found ∧
            current.InLoops nfa ∧
            (nfa.started text start anchored cursor current found).InLoops nfa) ∧
    ((∀ state atStart, ∀ p ∈ ForwardSubset.placesFrom nfa state atStart,
        nfa.CountFits p.state p.counts) ∧
      (∀ first ∈ ForwardSubset.initial nfa, ∀ w : List CodeUnit, w.length < 2 ^ 31 →
        (w.foldl (ForwardSubset.after nfa) first).InLoops nfa) ∧
      {key | ∃ first ∈ ForwardSubset.initial nfa, ∃ w : List CodeUnit,
        w.foldl (ForwardSubset.after nfa) first = key}.Finite) ∧
    (∀ atEnd, ∀ p ∈ BackwardSubset.placesFrom nfa
        [⟨nfa.start, false, List.replicate nfa.counters 0⟩] atEnd,
        nfa.CountFits p.state p.counts) ∧
      (∀ first ∈ BackwardSubset.initial nfa, ∀ w : List CodeUnit, w.length < 2 ^ 31 →
        (w.foldl (BackwardSubset.after nfa) first).InLoops nfa) ∧
      {key | ∃ first ∈ BackwardSubset.initial nfa, ∃ w : List CodeUnit,
        w.foldl (BackwardSubset.after nfa) first = key}.Finite := by
  have hwf := (Source.wellFormed_of_parse hparse).1
  have hloops := countsWithin_of_build hwf h
  have hgrounded : nfa.Grounded := by
    cases direction with
    | forward => exact (compiled_of_build hwf h).realizes.grounded
    | backward => exact (compiledBack_of_build hwf h).grounded
  obtain ⟨reached, hfinitely, hreached, hinsert⟩ := OpenLook.exists_closed [[]]
  have hnil := hreached [] List.mem_cons_self
  refine ⟨fun text start stop anchored hsize cursor current spare found hcalls => ?_,
    ⟨fun state atStart p hp => ?_, fun first hfirst w hw => ?_, ?_⟩,
    fun atEnd p hp => ?_, fun first hfirst w hw => ?_, ?_⟩
  · have hwithin := hcalls.within hgrounded
    have hle := hcalls.sub_le
    exact ⟨hcalls.runThreads_eq, hwithin.inLoops hloops (by omega),
      (within_started hgrounded hwithin).inLoops hloops (by omega)⟩
  · have hcomes : nfa.Comes 0 (p.state, p.counts) :=
      ((Reached.within_empty.add hnil hinsert ⟨.start 0 state, hnil⟩).seen p hp).1
    exact hloops.countFits hcomes (by omega)
  · exact (ForwardSubset.within_foldl_after hnil hinsert hfirst w).inLoops hnil hinsert hloops
      (by omega)
  · have hfinite : {key | ∃ n, ForwardSubset.Within nfa n reached key}.Finite :=
      (ForwardSubset.finitely_within hfinitely).finite
    refine hfinite.subset ?_
    rintro _ ⟨first, hfirst, w, rfl⟩
    exact ⟨w.length, ForwardSubset.within_foldl_after hnil hinsert hfirst w⟩
  · exact hloops.countFits ((BackwardSubset.finds_explore BackwardSubset.comes_first).seen p hp)
      (by omega)
  · exact (BackwardSubset.within_foldl_after hfirst w).inLoops hloops (by omega)
  · have hfinite : {key | ∃ n, BackwardSubset.Within nfa n key}.Finite :=
      BackwardSubset.finitely_within.finite
    refine hfinite.subset ?_
    rintro _ ⟨first, hfirst, w, rfl⟩
    exact ⟨w.length, BackwardSubset.within_foldl_after hfirst w⟩

/-- `(?:a{3,4}b){5,}` has two loops that count, one inside of the other. -/
theorem Nfa.counters_inLoops_of_build_nested :
    ∃ (p : Pattern) (nfa : Nfa),
      Source.parse ⟨"(?:a{3,4}b){5,}", {}, {}⟩ = .ok p ∧
      Nfa.build ⟨p, true⟩ { maxUnroll := 2 } .forward = .ok nfa ∧ nfa.counters = 2 ∧
      (nfa.started #[97, 97, 97, 98] 0 true 0 (.empty nfa) none).InLoops nfa ∧
      (∀ first ∈ ForwardSubset.initial nfa,
        ([97, 97, 97, 98].foldl (ForwardSubset.after nfa) first).InLoops nfa) ∧
      ∀ first ∈ BackwardSubset.initial nfa,
        ([98, 97].foldl (BackwardSubset.after nfa) first).InLoops nfa := by
  let a : Term := .group none (some ⟨3, some 4, true⟩) (.one (.cons (.unit (.single 97)) .nil))
  let p : Pattern :=
    { body := .one (.cons (.group none (some ⟨5, none, true⟩)
        (.one (.cons a (.cons (.unit (.single 98)) .nil)))) .nil)
      flags := {}
      groupCount := 1
      groupNames := []
      context := 0 }
  have hparse : Source.parse ⟨"(?:a{3,4}b){5,}", {}, {}⟩ = .ok p := by cbv
  have hbuild : ((Nfa.build ⟨p, true⟩ { maxUnroll := 2 } .forward).toOption.any fun nfa =>
      nfa.counters = 2) = true := by cbv
  obtain ⟨nfa, hbuild, htest⟩ := exists_eq_ok_of_any hbuild
  obtain ⟨hsearch, ⟨-, hforward, -⟩, -, hbackward, -⟩ :=
    counters_inLoops_of_build (q := ⟨p, true⟩) hparse hbuild
  exact ⟨p, nfa, hparse, hbuild, by simpa using htest,
    (hsearch #[97, 97, 97, 98] 0 4 true (by decide) _ _ _ _ .first).2.2,
    fun first hfirst => hforward first hfirst _ (by decide),
    fun first hfirst => hbackward first hfirst _ (by decide)⟩

end UnitRegex
