import Mathlib.Data.Set.Function
import UnitRegex.Proofs.Automaton.Constructions
import UnitRegex.Proofs.Engine.LookRows
import UnitRegex.Proofs.Paths.Lookup
import UnitRegex.Proofs.Pattern.Parsed
import UnitRegex.Proofs.Table.Exact
import UnitRegex.Proofs.Table.ForwardDelays

/-!
The numbers that the tables keep in few bits. There is room for the ids of states and of paths and
for the branches of look-aheads, and a number that grows with the units read never wraps, since a key
is no further from the initial ones than there are keys. The bodies of look-arounds are told apart
by sixteen bits up to 65536 of them, which only an automaton with more states can exceed.
-/

namespace UnitRegex

/-! ### Ids -/

/-- No two bodies of a kind have one number of 16 bits. -/
structure Nfa.TellsBodies (nfa : Nfa) : Prop where
  lookBehinds : Set.InjOn UInt16.ofNat (Set.Iio nfa.lookBehinds.length)
  lookAheads : Set.InjOn UInt16.ofNat (Set.Iio nfa.lookAheads.length)

/-- Every id in a table is that of a state, and no two states have one id of 16 bits. -/
structure Dfa.TellsStates (dfa : Dfa) : Prop where
  id : ∀ i < dfa.size, (dfa.state i).id = i
  next : ∀ i < dfa.size, ∀ c j, (dfa.state i).next c = some j → j < dfa.size
  entry : ∀ j ∈ dfa.entries, j < dfa.size
  apart : Set.InjOn Int16.ofNat (Set.Iio dfa.size)

/-- No two paths have one byte, and none has the byte that stands for no result. -/
structure TellsPaths (paths : List Path) : Prop where
  apart : Set.InjOn UInt8.ofNat (Set.Iio paths.length)
  ne_noResult : ∀ i < paths.length, UInt8.ofNat i ≠ noResult

theorem injOn_uint16_iff {n : Nat} : Set.InjOn UInt16.ofNat (Set.Iio n) ↔ n ≤ 65536 := by
  constructor
  · intro h
    by_contra hlt
    have hfirst : 0 ∈ Set.Iio n := Set.mem_Iio.mpr (by omega)
    have hagain : 65536 ∈ Set.Iio n := Set.mem_Iio.mpr (by omega)
    exact absurd (h hfirst hagain (by decide)) (by decide)
  · intro h i hi j hj heq
    rw [Set.mem_Iio] at hi hj
    exact Progress.ofNat_inj (by omega) (by omega) heq

theorem Nfa.tellsBodies_iff {nfa : Nfa} :
    nfa.TellsBodies ↔ nfa.lookBehinds.length ≤ 65536 ∧ nfa.lookAheads.length ≤ 65536 := by
  rw [← injOn_uint16_iff, ← injOn_uint16_iff]
  exact ⟨fun h => ⟨h.lookBehinds, h.lookAheads⟩, fun h => ⟨h.1, h.2⟩⟩

theorem tellsPaths_of_length_le {paths : List Path} (h : paths.length ≤ 254) :
    TellsPaths paths where
  apart i hi j hj heq := by
    rw [Set.mem_Iio] at hi hj
    have hnat := congrArg UInt8.toNat heq
    rwa [UInt8.toNat_ofNat_of_lt' (show i < 256 by omega),
      UInt8.toNat_ofNat_of_lt' (show j < 256 by omega)] at hnat
  ne_noResult i hi heq := by
    have hnat := congrArg UInt8.toNat heq
    rw [UInt8.toNat_ofNat_of_lt' (show i < 256 by omega)] at hnat
    have hlast : noResult.toNat = 255 := rfl
    omega

namespace Powerset

variable {κ : Type} {view : Powerset κ} {initial : List κ} {dfa : Dfa} {keys : Array κ}

theorem Tabulates.exists_exactState (h : view.Tabulates initial dfa keys) {i : Nat}
    (hi : i < dfa.size) : ∃ key, view.ExactState keys i key (dfa.state i) := by
  have hsize : dfa.size = keys.size := h.size
  exact ⟨keys[i], h.exactState (Array.getElem?_eq_getElem (by omega))⟩

theorem Tabulates.lt_size (h : view.Tabulates initial dfa keys) {i : Nat} {key : κ}
    (hi : keys[i]? = some key) : i < dfa.size := by
  obtain ⟨hlt, -⟩ := Array.getElem?_eq_some_iff.mp hi
  exact Nat.lt_of_lt_of_eq hlt h.size.symm

theorem Tabulates.tellsStates (h : view.Tabulates initial dfa keys) : dfa.TellsStates where
  id i hi := by
    obtain ⟨key, hexact⟩ := h.exists_exactState hi
    exact hexact.id
  next i hi c j hnext := by
    obtain ⟨key, hexact⟩ := h.exists_exactState hi
    exact h.lt_size ((hexact.next_some c j).mp hnext).2
  entry j hj := by
    obtain ⟨i, hi⟩ := List.getElem?_of_mem hj
    obtain ⟨hlt, -⟩ := List.getElem?_eq_some_iff.mp hi
    have hkey := h.entry i _ (List.getElem?_eq_getElem (h.entries ▸ hlt))
    rw [Dfa.entry, hi, Option.getD_some] at hkey
    exact h.lt_size hkey
  apart i hi j hj heq := by
    have hsize : dfa.size = keys.size := h.size
    have hfew := h.few
    rw [Set.mem_Iio] at hi hj
    have hint := congrArg Int16.toInt heq
    rw [Int16.toInt_ofNat_of_lt (by omega), Int16.toInt_ofNat_of_lt (by omega)] at hint
    exact Int.ofNat.inj hint

/-- There are too few keys for one to be far from the initial ones. -/
theorem Tabulates.exists_reaches_lt (h : view.Tabulates initial dfa keys) {d : Nat} {key : κ}
    (hreach : view.Reaches initial d key) : ∃ d < 32767, view.Reaches initial d key := by
  obtain ⟨i, hi⟩ := Array.getElem?_of_mem (h.mem_of_reaches hreach)
  obtain ⟨d', hle, hreach'⟩ := h.reaches i key hi
  obtain ⟨hlt, -⟩ := Array.getElem?_eq_some_iff.mp hi
  have hfew := h.few
  exact ⟨d', by omega, hreach'⟩

end Powerset

/-! ### Numbers of units -/

namespace OpenLook

/-- All look-aheads of a list were passed at most `d` units ago. -/
def PassedWithin (d : Nat) (looks : List OpenLook) : Prop := ∀ look ∈ looks, look.read.toNat ≤ d

variable {nfa : Nfa} {d : Nat} {looks looks' : List OpenLook}

theorem PassedWithin.insertInto (h : PassedWithin d looks) {look : OpenLook}
    (hlook : look.read.toNat ≤ d) : PassedWithin d (look.insertInto looks) := by
  intro q hq
  rcases mem_insertInto.mp hq with rfl | hq
  · exact hlook
  · exact h q hq

theorem read_le_of_after {p q : OpenLook} {u : CodeUnit} (h : p.after nfa u = .undecided q) :
    q.read.toNat ≤ p.read.toNat + 1 := by
  rw [after_eq] at h
  split at h
  · exact absurd h (LookVerdict.ofFound_ne_undecided _ _ _)
  · obtain rfl := LookVerdict.undecided.inj h
    exact toNat_add_one_le p.read

theorem PassedWithin.allAfter (h : PassedWithin d looks) {u : CodeUnit}
    (hafter : allAfter? nfa u looks = some looks') : PassedWithin (d + 1) looks' := by
  induction looks generalizing looks' with
  | nil =>
    obtain rfl := Option.some.inj hafter
    exact fun look hlook => by cases hlook
  | cons p rest ih =>
    have hrest : PassedWithin d rest := fun q hq => h q (List.mem_cons_of_mem _ hq)
    unfold allAfter? at hafter
    split at hafter
    · cases hafter
    · cases hafter
    · rename_i looks _ hlooks
      obtain rfl := Option.some.inj hafter
      exact ih hrest hlooks
    · rename_i q looks hq hlooks
      obtain rfl := Option.some.inj hafter
      have hp := h p List.mem_cons_self
      exact (ih hrest hlooks).insertInto ((read_le_of_after hq).trans (Nat.succ_le_succ hp))

end OpenLook

/-- The look-aheads that an entry still has to see through. -/
def Entry.looks : Entry → List OpenLook
  | thread _ _ looks => looks
  | unconfirmed _ looks => looks
  | atEnd => []

namespace ForwardSubset

variable {nfa : Nfa} {key : ForwardSubset} {d : Nat}

/-- One more unit does not wrap a number of a key. -/
structure CountsOn (key : ForwardSubset) : Prop where
  looks : ∀ e ∈ key.entries, ∀ look ∈ e.looks, (look.read + 1).toNat = look.read.toNat + 1
  unconfirmed : ∀ delay looks, .unconfirmed delay looks ∈ key.entries →
    (delay + 1).toNat = delay.toNat + 1
  confirmed : ∀ delay, key.confirmed = some delay → (delay + 1).toNat = delay.toNat + 1

theorem ensures_passedWithin (nfa : Nfa) (progress : Progress) (atStart : Bool) (d : Nat) :
    Reached.Ensures nfa progress atStart (fun p => OpenLook.PassedWithin d p.looks)
      fun e => OpenLook.PassedWithin d e.looks where
  successors p q hp _ hq :=
    ForwardPlace.reached_of_mem_successors (fun look hlook => by cases hlook)
      (fun looks look hread hlooks => hlooks.insertInto (by simp [hread])) hp hq
  thread _ _ _ hp _ := hp
  unconfirmed _ hp _ := hp
  atEnd look hlook := by cases hlook

theorem passedWithin_ofStart (nfa : Nfa) (state : Nat) (atStart : Bool) :
    ∀ e ∈ (ofStart nfa state atStart).entries, OpenLook.PassedWithin 0 e.looks := by
  intro e he
  refine (ensures_passedWithin nfa [] atStart 0).add (by simp) ?_ e (List.mem_reverse.mp he)
  intro look hlook
  cases hlook

theorem passedWithin_after (h : ∀ e ∈ key.entries, OpenLook.PassedWithin d e.looks) (u : CodeUnit) :
    ∀ e ∈ (after nfa key u).entries, OpenLook.PassedWithin (d + 1) e.looks := by
  intro e he
  refine Reached.forall_mem_addAllAfter (ensures_passedWithin nfa _ false (d + 1))
    (fun state counts looks set next looks' hmem _ hafter => ?_)
    (fun delay looks looks' hmem hafter => ?_) (by simp) e (List.mem_reverse.mp he)
  · exact (h _ hmem).allAfter hafter
  · exact (h _ hmem).allAfter hafter

/-- Neither a look-ahead nor a match is older than the key that holds it. -/
theorem age_of_reaches (h : (powerset nfa).Reaches (initial nfa) d key) :
    (∀ e ∈ key.entries, OpenLook.PassedWithin d e.looks) ∧ key.NotBefore nfa 0 d := by
  induction h with
  | start hkey =>
    have hstart (state : Nat) (atStart : Bool) :
        (∀ e ∈ (ofStart nfa state atStart).entries, OpenLook.PassedWithin 0 e.looks) ∧
          (ofStart nfa state atStart).NotBefore nfa 0 0 :=
      ⟨passedWithin_ofStart nfa state atStart, notBefore_ofStart (.inl (Nat.le_refl 0)) atStart⟩
    obtain ⟨entries, -, hkey⟩ := List.mem_flatMap.mp hkey
    rcases List.mem_append.mp hkey with hkey | hkey
    · obtain ⟨state, -, rfl⟩ := List.mem_map.mp hkey
      exact hstart state false
    · obtain ⟨state, -, rfl⟩ := List.mem_map.mp hkey
      exact hstart state true
  | read _ u _ ih => exact ⟨passedWithin_after ih.1 u, ih.2.after u⟩

theorem countsOn_of_reaches (h : (powerset nfa).Reaches (initial nfa) d key) (hd : d < 65535) :
    key.CountsOn where
  looks e he look hlook := OpenLook.toNat_add_one ((age_of_reaches h).1 e he look hlook) hd
  unconfirmed delay looks hmem := by
    have hle : 0 + delay.toNat ≤ d := (age_of_reaches h).2.entries _ hmem
    exact OpenLook.toNat_add_one (by omega) hd
  confirmed delay hdelay := by
    have hle := (age_of_reaches h).2.confirmed delay hdelay
    exact OpenLook.toNat_add_one (by omega) hd

end ForwardSubset

/-! ### Automata of patterns -/

/-- What is kept in few bits of the numbers of a pattern's automaton, and of its tables, is exact: every
branch of a look-ahead has a bit of its own, states and paths have ids of their own, and units are
counted without wrapping. Only bodies can share a number, if and only if there are more than 65536 of
a kind, for which the automaton has to have more states than that. -/
theorem Nfa.exact_numbers_of_build {s : Source} {q : NumberedPattern}
    (hparse : s.parse = .ok q.toPattern) {config : Config} {nfa : Nfa}
    (h : Nfa.build q config .forward = .ok nfa) :
    ((nfa.TellsBodies ↔ nfa.lookBehinds.length ≤ 65536 ∧ nfa.lookAheads.length ≤ 65536) ∧
      (config.maxAutomatonStates ≤ 65536 → nfa.TellsBodies)) ∧
    (∀ branches ∈ nfa.lookAheads, ∀ i < branches.length, (OpenLook.bit i).toNat = 2 ^ i) ∧
    (∀ dfa, nfa.forwardTable config.tableLimit = .ok dfa →
      dfa.TellsStates ∧
      (∀ sets ∈ nfa.lookBehinds, ∀ n ≤ sets.length, (UInt16.ofNat n).toNat = n) ∧
      ∀ key ∈ (ForwardSubset.powerset nfa).needed (ForwardSubset.initial nfa), key.CountsOn) ∧
    ∀ paths, nfa.allPaths? config.pathLimit = some paths →
      TellsPaths paths ∧
      ∀ dfa, (PathSubset.powerset paths.toArray).tabulate [PathSubset.initial paths.toArray]
          config.tableLimit = .ok dfa →
        dfa.TellsStates ∧
        ∀ key ∈ (PathSubset.powerset paths.toArray).needed [PathSubset.initial paths.toArray],
          ∀ e ∈ key, (e.2 + 1).toNat = e.2.toNat + 1 := by
  have hcompiled := compiled_of_build (Source.wellFormed_of_parse hparse).1 h
  refine ⟨⟨tellsBodies_iff, fun hlimit => ?_⟩, fun branches hbranches i hi => ?_,
    fun dfa htable => ?_, fun paths hpaths => ?_⟩
  · obtain ⟨p, numbered⟩ := q
    obtain rfl : numbered = true := by
      cases numbered with
      | true => rfl
      | false => cases h
    have hlength := length_bodies_le h
    exact tellsBodies_iff.mpr ⟨by omega, by omega⟩
  · exact OpenLook.toNat_bit (Nat.lt_of_lt_of_le hi (hcompiled.lookAheads branches hbranches))
  · obtain ⟨keys, -, hkeys⟩ := Powerset.tabulates_of_tabulate (ForwardSubset.respects nfa) htable
    refine ⟨hkeys.tellsStates, fun sets hsets n hn => ?_, fun key ⟨d, hreach⟩ => ?_⟩
    · have hcontext := ForwardSubset.context_lt hcompiled.anchored hkeys
      have hlength := hcompiled.lookBehinds sets hsets
      exact UInt16.toNat_ofNat_of_lt' (show n < 65536 by omega)
    · obtain ⟨d, hd, hreach⟩ := hkeys.exists_reaches_lt hreach
      exact ForwardSubset.countsOn_of_reaches hreach (by omega)
  · have hfew : paths.length ≤ 254 :=
      Nat.le_trans (hcompiled.allPaths?_spec hpaths).1 (Nat.min_le_right _ _)
    refine ⟨tellsPaths_of_length_le hfew, fun dfa htable => ?_⟩
    obtain ⟨keys, -, hkeys⟩ :=
      Powerset.tabulates_of_tabulate (PathSubset.respects paths.toArray) htable
    refine ⟨hkeys.tellsStates, fun key ⟨d, hreach⟩ e he => ?_⟩
    obtain ⟨d, hd, hreach⟩ := hkeys.exists_reaches_lt hreach
    have hread := (PathSubset.readTo_of_reaches (by simpa using hfew) hreach (by omega)).depth e he
    exact OpenLook.toNat_add_one (Nat.le_of_eq hread) (by omega)

/-- `(?<=a)b(?=c|de)` has bodies of both kinds, and `(a|b)c` has two paths. -/
theorem Nfa.exact_numbers_of_build_look :
    (∃ (p : Pattern) (nfa : Nfa) (dfa : Dfa),
      Source.parse ⟨"(?<=a)b(?=c|de)", {}, {}⟩ = .ok p ∧
      Nfa.build ⟨p, true⟩ {} .forward = .ok nfa ∧ nfa.forwardTable 2400 = .ok dfa ∧
      nfa.lookBehinds.length = 1 ∧ nfa.lookAheads.map List.length = [2] ∧
      nfa.TellsBodies ∧ (OpenLook.bit 1).toNat = 2 ∧ dfa.TellsStates ∧
      ∀ key ∈ (ForwardSubset.powerset nfa).needed (ForwardSubset.initial nfa), key.CountsOn) ∧
    ∃ (p : Pattern) (nfa : Nfa) (paths : List Path) (dfa : Dfa),
      Source.parse ⟨"(a|b)c", {}, {}⟩ = .ok p ∧ Nfa.build ⟨p, true⟩ {} .forward = .ok nfa ∧
      nfa.allPaths? 64 = some paths ∧ paths.length = 2 ∧ TellsPaths paths ∧
      (PathSubset.powerset paths.toArray).tabulate [PathSubset.initial paths.toArray] 2400 =
        .ok dfa ∧ dfa.TellsStates := by
  constructor
  · let p : Pattern :=
      ⟨.one (.cons (.look true false (.one (.cons (.unit (.single 97)) .nil)))
        (.cons (.unit (.single 98))
          (.cons (.look false false (.more (.cons (.unit (.single 99)) .nil)
            (.one (.cons (.unit (.single 100)) (.cons (.unit (.single 101)) .nil))))) .nil))),
        {}, 1, [], 1⟩
    have hparse : Source.parse ⟨"(?<=a)b(?=c|de)", {}, {}⟩ = .ok p := by cbv
    have hok : ((Nfa.build ⟨p, true⟩ {} .forward).toOption.any fun nfa =>
        (nfa.forwardTable 2400).toOption.any fun _ =>
          decide (nfa.lookBehinds.length = 1 ∧ nfa.lookAheads.map List.length = [2])) = true := by
      cbv
    obtain ⟨nfa, hbuild, hok⟩ := exists_eq_ok_of_any hok
    obtain ⟨dfa, hdfa, hok⟩ := exists_eq_ok_of_any hok
    obtain ⟨hbehind, hahead⟩ := of_decide_eq_true hok
    obtain ⟨⟨-, hbodies⟩, hbits, htable, -⟩ :=
      exact_numbers_of_build (q := ⟨p, true⟩) hparse hbuild
    obtain ⟨hstates, -, hkeys⟩ := htable dfa hdfa
    obtain ⟨branches, hbranches, hlength⟩ := List.mem_map.mp (hahead ▸ List.mem_singleton_self 2)
    exact ⟨p, nfa, dfa, hparse, hbuild, hdfa, hbehind, hahead, hbodies (by decide),
      hbits branches hbranches 1 (by omega), hstates, hkeys⟩
  · let p : Pattern :=
      ⟨.one (.cons (.group (some 1) none (.more (.cons (.unit (.single 97)) .nil)
        (.one (.cons (.unit (.single 98)) .nil)))) (.cons (.unit (.single 99)) .nil)),
        {}, 2, [], 0⟩
    have hparse : Source.parse ⟨"(a|b)c", {}, {}⟩ = .ok p := by cbv
    have hok : ((Nfa.build ⟨p, true⟩ {} .forward).toOption.any fun nfa =>
        (nfa.allPaths? 64).any fun paths =>
          decide (paths.length = 2) &&
            ((PathSubset.powerset paths.toArray).tabulate [PathSubset.initial paths.toArray]
              2400).toOption.any fun _ => true) = true := by cbv
    obtain ⟨nfa, hbuild, hok⟩ := exists_eq_ok_of_any hok
    obtain ⟨paths, hpaths, hok⟩ := (Option.any_eq_true _ _).mp hok
    obtain ⟨hlength, hok⟩ := Bool.and_eq_true_iff.mp hok
    obtain ⟨dfa, hdfa, -⟩ := exists_eq_ok_of_any hok
    obtain ⟨-, -, -, htable⟩ := exact_numbers_of_build (q := ⟨p, true⟩) hparse hbuild
    obtain ⟨htells, hstates⟩ := htable paths hpaths
    exact ⟨p, nfa, paths, dfa, hparse, hbuild, hpaths, of_decide_eq_true hlength, htells, hdfa,
      (hstates dfa hdfa).1⟩

/-- With room for 200000 states, 65537 look-aheads for different texts have 65537 bodies. -/
theorem Nfa.not_tellsBodies_of_lookRow :
    ∃ (p : Pattern) (nfa : Nfa),
      Source.parse
        ⟨String.ofList (lookRow ((List.range 65537).map (binaryText 17))), {}, {}⟩ = .ok p ∧
      Nfa.build ⟨p, true⟩ { maxAutomatonStates := 200000, maxLookAhead := 17 } .forward =
        .ok nfa ∧
      ¬nfa.TellsBodies := by
  have hcount : 65537 ≤ 2 ^ 17 := by decide
  obtain ⟨p, nfa, hparse, hbuild, hlength⟩ :=
    exists_build_binaryTexts hcount { maxAutomatonStates := 200000, maxLookAhead := 17 }
      (by decide) (by decide)
  refine ⟨p, nfa, hparse, hbuild, fun htells => ?_⟩
  have hfew := (tellsBodies_iff.mp htells).2
  omega

end UnitRegex
