import Mathlib.Data.List.Nodup
import Mathlib.Data.List.Perm.Subperm
import UnitRegex.Proofs.Search.Leftmost
import UnitRegex.Proofs.Table.ForwardTable

/-!
The forward table of a pattern finds where its leftmost match ends. A walk begins in front of the
search, as far as the pattern looks behind, with the key that skips as many units.
-/

namespace UnitRegex

namespace Nfa

variable {nfa : Nfa} {text : Text}

theorem stopFrom_of_skips (h : nfa.Grounded) (hd : nfa.direction = .forward) {target count s : Nat}
    (hskips : nfa.Skips target count s) {cursor : Nat} (hcursor : cursor + count ≤ text.size)
    (counts : List Nat) :
    nfa.stopFrom h text cursor (s, counts) =
      nfa.stopFrom h text (cursor + count) (target, counts) := by
  induction hskips generalizing cursor with
  | here => rfl
  | @skip count s next hs _ ih =>
    have hu : text[cursor]? = some text[cursor] := by simp
    rw [stopFrom_of_unit (a := (s, counts)) h hd hs, hu, Option.any_some,
      CharSet.contains_full, if_pos rfl, ih (by omega),
      show cursor + 1 + count = cursor + (count + 1) by omega]

theorem looksFit_of_skips {target count s : Nat} (hskips : nfa.Skips target count s)
    (htarget : ∀ atStart, nfa.LooksFit atStart target) : ∀ atStart, nfa.LooksFit atStart s := by
  induction hskips with
  | here => exact htarget
  | skip hs _ ih =>
    intro atStart
    refine looksFit_of_steps (by simp [hs]) fun b t hstep => ?_
    obtain ⟨rfl, rfl⟩ := hstep.eq_of_unit hs
    exact ih false

theorem looksFit_of_searches {sticky : Bool} {search : Nat} (hsearch : nfa.Searches sticky search)
    (hstart : ∀ atStart, nfa.LooksFit atStart nfa.start) :
    ∀ atStart, nfa.LooksFit atStart search := by
  cases hsearch with
  | sticky => exact hstart
  | @searching _ skip hsplit hskip =>
    -- The loop is only left to the pattern.
    have hreach : ∀ {atStart : Bool} {x : Bool × Nat},
        Relation.ReflTransGen nfa.Proceeds (atStart, search) x →
        x.2 = search ∨ x.2 = skip ∨ ∃ b, Relation.ReflTransGen nfa.Proceeds (b, nfa.start) x := by
      intro atStart x hx
      induction hx with
      | refl => exact .inl rfl
      | @tail y z _ hstep ih =>
        obtain ⟨a, s⟩ := y
        obtain ⟨b, t⟩ := z
        rcases ih with rfl | rfl | ⟨c, hs⟩
        · rcases List.mem_pair.mp (hstep.mem_of_split hsplit) with rfl | rfl
          · exact .inr (.inr ⟨b, .refl⟩)
          · exact .inr (.inl rfl)
        · exact .inl (hstep.eq_of_unit hskip).2
        · exact .inr (.inr ⟨c, hs.tail hstep⟩)
    intro atStart x hx body negated next hs
    rcases hreach hx with hx | hx | ⟨b, hx⟩
    · simp [hx, hsplit] at hs
    · simp [hx, hskip] at hs
    · exact hstart b x hx body negated next hs

/-- Where a search begins, it finds what the first successful attempt finds. -/
theorem stopFrom_of_searches (h : nfa.Grounded) (hd : nfa.direction = .forward) {sticky : Bool}
    {search : Nat} (hsearch : nfa.Searches sticky search) {start : Nat}
    (hstart : start ≤ text.size) (counts : List Nat) :
    nfa.stopFrom h text start (search, counts) =
      (attempts start text.size sticky start).findSome? fun i =>
        nfa.stopFrom h text i (nfa.start, counts) := by
  cases hsearch with
  | sticky => simp [attempts]
  | @searching _ skip hsplit hskip =>
    have hstep : ∀ cursor, nfa.stopFrom h text cursor (search, counts) =
        (nfa.stopFrom h text cursor (nfa.start, counts)).or
          (nfa.stopFrom h text cursor (skip, counts)) := by
      intro cursor
      rw [stopFrom_of_steps (a := (search, counts)) h (by simp [hsplit]) (by simp [hsplit])
        ⟨search, counts, #[]⟩ rfl]
      simp only [Thread.successors, hsplit, List.map_cons, List.map_nil, List.findSome?_cons,
        List.findSome?_nil]
      cases nfa.stopFrom h text cursor (nfa.start, counts) <;>
        cases nfa.stopFrom h text cursor (skip, counts) <;> rfl
    have hloop : ∀ n start, text.size - start = n → start ≤ text.size →
        nfa.stopFrom h text start (search, counts) =
          (List.range' start (n + 1)).findSome? fun i =>
            nfa.stopFrom h text i (nfa.start, counts) := by
      intro n
      induction n with
      | zero =>
        intro start hn hle
        rw [hstep, stopFrom_of_unit (a := (skip, counts)) h hd hskip,
          Array.getElem?_eq_none (show text.size ≤ start by omega)]
        simp
      | succ n ih =>
        intro start hn hle
        have hu : text[start]? = some text[start] := by simp
        rw [hstep, stopFrom_of_unit (a := (skip, counts)) h hd hskip, hu, Option.any_some,
          CharSet.contains_full, if_pos rfl, ih (start + 1) (by omega) (by omega),
          List.range'_succ (s := start), List.findSome?_cons]
        cases nfa.stopFrom h text start (nfa.start, counts) <;> rfl
    rw [hloop _ start rfl hstart, attempts, if_neg (by simp),
      show text.size + 1 - start = text.size - start + 1 by omega]

end Nfa

namespace ForwardSubset

variable {nfa : Nfa} {text : Text}

/-- A key of the table that stands for its first state is where the state can go on. -/
theorem stop?_ofStart (ht : nfa.Trackable) {floor start s : Nat} {atStart : Bool}
    (hfar : floor = 0 ∨ floor + nfa.context = start) (hs : s ∈ nfa.anchored ++ nfa.unanchored)
    (hready : nfa.Ready start floor s) (hatStart : start ≤ floor → (atStart = true ↔ floor = 0)) :
    (ofStart nfa s atStart).stop? ht.grounded text floor =
      nfa.stopFrom ht.grounded text floor (s, List.replicate nfa.counters 0) := by
  have hlocated : nfa.Located text floor start floor [] atStart :=
    ⟨Progress.tracks_nil, hfar, hatStart⟩
  obtain ⟨hadd, -⟩ := Reached.add_spec (d := 0) ht hlocated
    (p := ⟨s, false, List.replicate nfa.counters 0, []⟩)
    ⟨⟨by simp, by simp⟩, ht.looksFit s hs atStart⟩ hready rfl (Reached.settled_empty ht.grounded)
  rw [ofStart, stop?_toSubset, hadd]
  simp [Reached.stop?, ForwardPlace.stop?, ForwardPlace.possible, OpenLook.allHold]

theorem fits_ofStart (ht : nfa.Trackable) {floor start s : Nat} (atStart : Bool)
    (hfar : floor = 0 ∨ floor + nfa.context = start) (hs : s ∈ nfa.anchored ++ nfa.unanchored)
    (hready : nfa.Ready start floor s) :
    (ofStart nfa s atStart).Fits nfa text floor start floor where
  floor_le := Nat.le_refl _
  far := hfar
  tracks _ := by
    have hprogress : (ofStart nfa s atStart).progress = [] := by
      simp [ofStart, Reached.toSubset]
    rw [hprogress]
    exact Progress.tracks_nil
  ready e he := (Reached.ensures_ready ht start floor).add (by simp)
    ⟨⟨0, ⟨by simp, by simp⟩, ht.looksFit s hs atStart⟩, hready⟩ e (List.mem_reverse.mp he)

/-- The initial keys of one kind of search. -/
def initialOf (nfa : Nfa) (entries : List Nat) : List ForwardSubset :=
  entries.map (fun s => ofStart nfa s false) ++ (entries.take 1).map fun s => ofStart nfa s true

theorem initial_eq (nfa : Nfa) :
    initial nfa = initialOf nfa nfa.anchored ++ initialOf nfa nfa.unanchored := by
  simp [initial, initialOf]

theorem length_initialOf {entries : List Nat} {context : Nat}
    (hlength : entries.length = context + 1) :
    (initialOf nfa entries).length = context + 2 := by
  simp only [initialOf, List.length_append, List.length_map, List.length_take]
  omega

theorem getElem?_initialOf {entries : List Nat} {context : Nat}
    (hlength : entries.length = context + 1) (start : Nat) :
    ∃ s, entries[min start context]? = some s ∧
      (initialOf nfa entries)[if start = 0 then context + 1 else min start context]? =
        some (ofStart nfa s (decide (start = 0))) := by
  have hlt : min start context < entries.length := by omega
  refine ⟨entries[min start context], List.getElem?_eq_getElem hlt, ?_⟩
  by_cases hzero : start = 0
  · subst hzero
    have hhead : entries.take 1 = [entries[0]] := by
      rw [List.take_one, List.head?_eq_getElem?, List.getElem?_eq_getElem (by omega)]
      rfl
    simp [initialOf, hlength, hhead]
    rfl
  · rw [if_neg hzero, initialOf, List.getElem?_append_left (by simpa using hlt), List.getElem?_map,
      List.getElem?_eq_getElem hlt]
    simp [hzero]

/-- The key with which a search from an offset begins. -/
theorem getElem?_initial {context : Nat} (hanchored : nfa.anchored.length = context + 1)
    (hunanchored : nfa.unanchored.length = context + 1) (sticky : Bool) (start : Nat) :
    ∃ s, (if sticky then nfa.anchored else nfa.unanchored)[min start context]? = some s ∧
      (initial nfa)[entryFor context sticky start]? =
        some (ofStart nfa s (decide (start = 0))) := by
  have hle : (if start = 0 then context + 1 else min start context) < context + 2 := by
    split <;> omega
  rw [initial_eq, entryFor]
  cases sticky with
  | true =>
    obtain ⟨s, hs, hkey⟩ := getElem?_initialOf hanchored start
    refine ⟨s, hs, ?_⟩
    rw [List.getElem?_append_left (by rw [length_initialOf hanchored]; simpa using hle)]
    simpa using hkey
  | false =>
    obtain ⟨s, hs, hkey⟩ := getElem?_initialOf hunanchored start
    refine ⟨s, by simpa using hs, ?_⟩
    rw [List.getElem?_append_right (by rw [length_initialOf hanchored]; simp),
      length_initialOf hanchored]
    simpa using hkey

/-- An entry that skips a unit is a key of its own. -/
theorem ofStart_of_unit {s next : Nat} {set : CharSet} (hs : nfa.state s = .unit set next) :
    (ofStart nfa s false).entries = [.thread s (List.replicate nfa.counters 0) []] := by
  have hvisit : Reached.visit nfa [] false ⟨s, false, List.replicate nfa.counters 0, []⟩ {} = _ :=
    Reached.visit_unit (by simp) hs
  rw [ofStart, Reached.add, explore_cons, hvisit]
  simp only [Bool.false_eq_true, if_false, List.nil_append]
  rw [explore_nil]
  rfl

/-- The table has a key for every number of skipped units. -/
theorem context_lt {context target : Nat} (hlead : nfa.Lead target context nfa.anchored) {dfa : Dfa}
    {keys : Array ForwardSubset} (htable : (powerset nfa).Tabulates (initial nfa) dfa keys) :
    context < 65536 := by
  have hunit : ∀ s ∈ nfa.anchored.tail, ∃ next, nfa.state s = .unit .full next := by
    intro s hs
    obtain ⟨i, hi⟩ := List.getElem?_of_mem hs
    rw [List.getElem?_tail] at hi
    cases hlead.skips (i + 1) s hi with
    | skip h _ => exact ⟨_, h⟩
  have hnodup : (nfa.anchored.tail.map fun s => ofStart nfa s false).Nodup := by
    refine List.Nodup.map_on (fun s hs t ht heq => ?_)
      ((hlead.ascending.imp fun h => Nat.ne_of_lt h).sublist (List.tail_sublist _))
    obtain ⟨next, hs⟩ := hunit s hs
    obtain ⟨next', ht⟩ := hunit t ht
    have hentries := congrArg ForwardSubset.entries heq
    rw [ofStart_of_unit hs, ofStart_of_unit ht] at hentries
    simpa using hentries
  have hsubset : (nfa.anchored.tail.map fun s => ofStart nfa s false) ⊆ keys.toList := by
    intro key hkey
    obtain ⟨s, hs, rfl⟩ := List.mem_map.mp hkey
    have hinitial : ofStart nfa s false ∈ initial nfa := by
      rw [initial_eq, initialOf]
      simp only [List.mem_append, List.mem_map]
      exact .inl (.inl ⟨s, List.mem_of_mem_tail hs, rfl⟩)
    obtain ⟨i, hi⟩ := List.getElem?_of_mem hinitial
    have hget := htable.entry i _ hi
    exact Array.mem_toList_iff.mpr (Array.mem_of_getElem? hget)
  have hle := (List.subperm_of_subset hnodup hsubset).length_le
  have hfew := htable.few
  simp only [List.length_map, List.length_tail, hlead.length, Array.length_toList] at hle
  omega

end ForwardSubset

namespace Pattern.Compiled

variable {p : Pattern} {nfa : Nfa} {text : Text}

theorem context_eq (h : p.Compiled nfa) : nfa.context = p.context := by
  rw [Nfa.context, h.anchored.length]
  rfl

theorem looksFit (h : p.Compiled nfa) (hahead : nfa.lookAheads.length ≤ 65536) (atStart : Bool) :
    nfa.LooksFit atStart nfa.start :=
  Nfa.looksFit_of_guards h.guards hahead atStart nfa.start

theorem trackable (h : p.Compiled nfa) (hbehind : nfa.lookBehinds.length ≤ 65536)
    (hlooks : ∀ atStart, nfa.LooksFit atStart nfa.start) (hcontext : p.context < 65536) :
    nfa.Trackable where
  grounded := h.realizes.grounded
  direction := h.direction
  numberable := ⟨hbehind, fun sets hs => Nat.lt_of_le_of_lt (h.lookBehinds sets hs) hcontext⟩
  fewBranches body := by
    rw [Nfa.branches]
    cases hbody : nfa.lookAheads[body]? with
    | none => exact Nat.zero_le _
    | some branches => exact h.lookAheads branches (List.mem_of_getElem? hbody)
  context sets hs := h.context_eq ▸ h.lookBehinds sets hs
  looksFit s hs := by
    rcases List.mem_append.mp hs with hs | hs
    · obtain ⟨i, hi⟩ := List.getElem?_of_mem hs
      exact Nfa.looksFit_of_skips (h.anchored.skips i s hi) hlooks
    · obtain ⟨search, hsearch, hlead⟩ := h.unanchored
      obtain ⟨i, hi⟩ := List.getElem?_of_mem hs
      exact Nfa.looksFit_of_skips (hlead.skips i s hi) (Nfa.looksFit_of_searches hsearch hlooks)

theorem stopFrom_eq (h : p.Compiled nfa) {i : Nat} (hi : i ≤ text.size) :
    nfa.stopFrom h.realizes.grounded text i (nfa.start, List.replicate nfa.counters 0) =
      (p.matchAt? text i).map MatchState.cursor := by
  rw [← h.first_eq hi, Option.map_map]
  exact (Nfa.stopFrom_of_thread h.realizes.grounded i (Thread.initial nfa)).symm

/-- The key with which a search begins stands for a state that skips the units up to the search. -/
theorem exists_first_state (h : p.Compiled nfa) (start : Nat) :
    ∃ s, (ForwardSubset.initial nfa)[ForwardSubset.entryFor nfa.context p.flags.sticky start]? =
        some (ForwardSubset.ofStart nfa s (decide (start = 0))) ∧
      s ∈ nfa.anchored ++ nfa.unanchored ∧ nfa.Ready start (start - min start nfa.context) s ∧
      ∃ target, nfa.Skips target (min start nfa.context) s ∧
        nfa.Searches p.flags.sticky target := by
  obtain ⟨search, hsearches, hunanchored⟩ := h.unanchored
  obtain ⟨s, hs, hkey⟩ := ForwardSubset.getElem?_initial h.anchored.length hunanchored.length
    p.flags.sticky start
  have hentry : s ∈ nfa.anchored ++ nfa.unanchored := by
    have hmem := List.mem_of_getElem? hs
    split at hmem
    · exact List.mem_append_left _ hmem
    · exact List.mem_append_right _ hmem
  obtain ⟨target, hskips, htarget⟩ : ∃ target, nfa.Skips target (min start p.context) s ∧
      nfa.Searches p.flags.sticky target := by
    cases hsticky : p.flags.sticky with
    | true =>
      rw [hsticky] at hs
      exact ⟨nfa.start, h.anchored.skips _ s hs, .sticky⟩
    | false =>
      rw [hsticky] at hs hsearches
      exact ⟨search, hunanchored.skips _ s (by simpa using hs), hsearches⟩
  have hready : nfa.Ready start (start - min start p.context) s := by
    cases hcount : min start p.context with
    | zero => exact .inl (by omega)
    | succ count => exact .inr ⟨target, count, hcount ▸ hskips, by omega⟩
  rw [h.context_eq]
  exact ⟨s, hkey, hentry, hready, target, hskips, htarget⟩

/-- The forward table finds the end of the leftmost match. -/
theorem lastEnd?_eq (h : p.Compiled nfa) (hbehind : nfa.lookBehinds.length ≤ 65536)
    (hlooks : ∀ atStart, nfa.LooksFit atStart nfa.start) {maxStates : Nat} {dfa : Dfa}
    (htable : nfa.forwardTable maxStates = .ok dfa) {start : Nat} (hstart : start ≤ text.size) :
    dfa.lastEnd? text (dfa.entry (ForwardSubset.entryFor nfa.context p.flags.sticky start))
        (start - min start nfa.context) =
      (p.leftmost? text start).map MatchState.cursor := by
  obtain ⟨keys, -, hkeys⟩ := Powerset.tabulates_of_tabulate (ForwardSubset.respects nfa) htable
  have ht := h.trackable hbehind hlooks (ForwardSubset.context_lt h.anchored hkeys)
  obtain ⟨s, hkey, hentry, hready, target, hskips, htarget⟩ := h.exists_first_state start
  have hfar : start - min start nfa.context = 0 ∨
      start - min start nfa.context + nfa.context = start := by omega
  have hatStart : start ≤ start - min start nfa.context →
      (decide (start = 0) = true ↔ start - min start nfa.context = 0) := by
    intro hle
    rw [decide_eq_true_iff]
    omega
  rw [Dfa.lastEnd?_eq hkeys (fun _ _ hdead => ForwardSubset.stop?_of_dead ht.grounded hdead)
    (ForwardSubset.endsBy ht hkeys text (start - min start nfa.context) start) hkey (by omega)
    (ForwardSubset.fits_ofStart ht _ hfar hentry hready),
    ForwardSubset.stop?_ofStart ht hfar hentry hready hatStart,
    Nfa.stopFrom_of_skips ht.grounded h.direction hskips (by omega),
    show start - min start nfa.context + min start nfa.context = start by omega,
    Nfa.stopFrom_of_searches ht.grounded h.direction htarget hstart, leftmost?, List.map_findSome?]
  exact findSome?_congr fun i hi => h.stopFrom_eq ((Nfa.mem_attempts hstart).mp hi).2.1

end Pattern.Compiled

/-- A walk by the forward table finds an end where the simulation of the automaton finds captures,
and then it is the end of group 0. -/
theorem Nfa.lastEnd?_eq_findSlots {s : Source} {p : Pattern} {q : NumberedPattern}
    {config : Config} {nfa : Nfa} (hparse : s.parse = .ok p)
    (hnumber : NumberedPattern.number { p with } = .ok q)
    (hbuild : Nfa.build q config .forward = .ok nfa)
    (hbehind : nfa.lookBehinds.length ≤ 65536) (hahead : nfa.lookAheads.length ≤ 65536)
    {maxStates : Nat} {dfa : Dfa} (htable : nfa.forwardTable maxStates = .ok dfa) (text : Text)
    {start : Nat} (hstart : start ≤ text.size) :
    (dfa.lastEnd? text (dfa.entry (ForwardSubset.entryFor nfa.context p.flags.sticky start))
        (start - min start nfa.context)).map Int.ofNat =
      (nfa.findSlots text start text.size p.flags.sticky).map fun slots => slots.stop 0 := by
  have hcompiled := Source.compiled_of_build hparse hnumber hbuild
  have hgroups := (Source.wellFormed_of_parse hparse).2
  rw [hcompiled.lastEnd?_eq hbehind (hcompiled.looksFit hahead) htable hstart,
    hcompiled.findSlots_eq_leftmost? hgroups hstart, Option.map_map, Option.map_map]
  cases hy : p.leftmost? text start with
  | none => rfl
  | some y =>
    obtain ⟨i, hi, hiy⟩ := List.exists_of_findSome?_eq_some hy
    have hbounds := hcompiled.bounds hgroups ((Nfa.mem_attempts hstart).mp hi).2.1 hiy
    exact congrArg some hbounds.2.2.2.2.symm

/-- A search for `(?<=a)b(?!c)` in `abcab` passes over the first `b`, behind which is a `c`. -/
theorem Nfa.lastEnd?_eq_findSlots_look :
    ∃ p q nfa dfa, Source.parse ⟨"(?<=a)b(?!c)", {}, {}⟩ = .ok p ∧
      NumberedPattern.number { p with } = .ok q ∧ Nfa.build q {} .forward = .ok nfa ∧
      nfa.lookBehinds.length ≤ 65536 ∧ nfa.lookAheads.length ≤ 65536 ∧
      nfa.forwardTable 100 = .ok dfa ∧
      (dfa.lastEnd? #[97, 98, 99, 97, 98] (dfa.entry (ForwardSubset.entryFor nfa.context false 1))
        (1 - min 1 nfa.context)).map Int.ofNat = some 5 := by
  let text : Text := #[97, 98, 99, 97, 98]
  let p : Pattern :=
    ⟨.one (.cons (.look true false (.one (.cons (.unit (.single 97)) .nil)))
      (.cons (.unit (.single 98))
        (.cons (.look false true (.one (.cons (.unit (.single 99)) .nil))) .nil))), {}, 1, [], 1⟩
  have hparse : Source.parse ⟨"(?<=a)b(?!c)", {}, {}⟩ = .ok p := by cbv
  have hok : ((Nfa.build ⟨p, true⟩ {} .forward).toOption.any fun nfa =>
      (nfa.forwardTable 100).toOption.any fun _ =>
        decide (nfa.lookBehinds.length ≤ 65536 ∧ nfa.lookAheads.length ≤ 65536 ∧
          nfa.findSlots text 1 5 false = some #[4, 5])) = true := by cbv
  obtain ⟨nfa, hbuild, hok⟩ := exists_eq_ok_of_any hok
  obtain ⟨dfa, hdfa, hok⟩ := exists_eq_ok_of_any hok
  obtain ⟨hbehind, hahead, hslots⟩ := of_decide_eq_true hok
  have hstart : 1 ≤ text.size := by decide
  have hend := Nfa.lastEnd?_eq_findSlots hparse (q := ⟨p, true⟩) rfl hbuild hbehind hahead hdfa
    text hstart
  refine ⟨p, ⟨p, true⟩, nfa, dfa, hparse, rfl, hbuild, hbehind, hahead, hdfa, ?_⟩
  exact hend.trans (congrArg (Option.map fun slots => slots.stop 0) hslots)

end UnitRegex
