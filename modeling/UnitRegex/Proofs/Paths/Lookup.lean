import UnitRegex.Proofs.Paths.Reports
import UnitRegex.Proofs.Table.ForwardEnds

/-!
Captures by look-up. The leftmost match ends where its path does, and reading the text back from
there meets this path first: a path that fits further to the left would be a match further to the
left, and one with a smaller id would be preferred.
-/

namespace UnitRegex

/-- The offsets of a path are its slots. -/
theorem PathTable.offsetsOf_movedBy {groupCount : Nat} {q : Path}
    (hsize : q.slots.size = 2 * groupCount) (distance : Int) :
    (offsetsOf groupCount q).movedBy distance = ⟨q.slots.movedBy distance⟩ := by
  rw [Offsets.movedBy, Slots.movedBy]
  congr 1
  refine Array.ext (by simp [offsetsOf, Offsets.update, Offsets.unset, Slots.unset, hsize])
    fun i hi hi' => ?_
  have hlt : i < q.slots.size := by simpa using hi'
  simp only [offsetsOf, Offsets.update, Offsets.unset, Slots.unset, Array.getElem_map,
    Array.getElem_mapIdx, Array.getElem_replicate, Array.getElem?_eq_getElem hlt]
  by_cases hneg : q.slots[i] < 0
  · have hnot : ¬0 ≤ q.slots[i] := by omega
    simp [Option.filter, hneg, hnot]
  · have hnonneg : 0 ≤ q.slots[i] := by omega
    simp [Option.filter, hneg, hnonneg]

namespace PathSubset

variable {paths : List Path} {text : Text} {stop i : Nat}

/-- Read from the end of a match, the paths are all there. -/
theorem ends_initial (hfew : paths.length ≤ 254) (stop i : Nat) :
    ends paths.toArray text (initial paths.toArray) stop i =
      ((List.range paths.length).find? fun k =>
        paths[k]?.any fun q => q.length == stop - i && q.fits text i).map UInt8.ofNat := by
  rw [ends, initial, List.find?_map, Option.map_map, List.size_toArray]
  congr 1
  refine List.find?_congr fun k hk => ?_
  have hlt : k < 256 := by
    have := List.mem_range.mp hk
    omega
  rw [Function.comp_apply, fitsBetween, path?]
  simp only [UInt8.toNat_ofNat_of_lt' hlt, List.getElem?_toArray]
  cases paths[k]? with
  | none => rfl
  | some q =>
    simp [Path.fits, Bool.and_assoc]

theorem ends_eq_none (hfew : paths.length ≤ 254) (hnone : paths.find? (·.fits text i) = none) :
    ends paths.toArray text (initial paths.toArray) stop i = none := by
  rw [ends_initial hfew, Option.map_eq_none_iff, List.find?_eq_none]
  intro k _
  cases hq : paths[k]? with
  | none => simp
  | some q =>
    have hnot := List.find?_eq_none.mp hnone q (List.mem_of_getElem? hq)
    simp [hnot]

/-- The first path that fits is found by its number. -/
theorem ends_eq_some (hfew : paths.length ≤ 254) {q : Path}
    (hfind : paths.find? (·.fits text i) = some q) :
    ∃ k, paths[k]? = some q ∧
      ends paths.toArray text (initial paths.toArray) (i + q.length) i = some (UInt8.ofNat k) := by
  obtain ⟨hfits, k, hk, hq, hfirst⟩ := List.find?_eq_some_iff_getElem.mp hfind
  have hget : paths[k]? = some q := by rw [List.getElem?_eq_getElem hk, hq]
  refine ⟨k, hget, ?_⟩
  rw [ends_initial hfew]
  refine congrArg _ (List.find?_range_eq_some.mpr ⟨?_, List.mem_range.mpr hk, fun j hj => ?_⟩)
  · simp [hget, hfits]
  · have hnot := hfirst j hj
    simp only [Bool.not_eq_true'] at hnot
    simp [List.getElem?_eq_getElem (show j < paths.length by omega), hnot]

end PathSubset

/-- Where the match along a path ends tells where its captures are. -/
theorem PathTable.offsetsOf_fromEnd {groupCount : Nat} {q : Path}
    (hsize : q.slots.size = 2 * groupCount) (start : Nat) :
    (offsetsOf groupCount q).fromEnd (start + q.length : Nat) = ⟨q.slots.movedBy start⟩ := by
  have hdistance : ((start + q.length : Nat) : Int) - (offsetsOf groupCount q).length = start := by
    have hlength : (offsetsOf groupCount q).length = q.length := rfl
    rw [hlength]
    omega
  rw [Offsets.fromEnd, hdistance, offsetsOf_movedBy hsize]

/-- Reading back from the end of a match, the first path that fits at the first position where one
fits is reported. -/
theorem PathSubset.firstResult?_eq {paths : List Path} (hfew : paths.length ≤ 254) {dfa : Dfa}
    {maxStates : Nat}
    (htable : (powerset paths.toArray).tabulate [initial paths.toArray] maxStates = .ok dfa)
    {text : Text} {start i : Nat} {q : Path} (hstart : start ≤ i)
    (hstop : i + q.length ≤ text.size) (hfind : paths.find? (·.fits text i) = some q)
    (hearlier : ∀ j, start ≤ j → j < i → paths.find? (·.fits text j) = none) :
    ∃ k, paths[k]? = some q ∧
      dfa.firstResult? text (dfa.entry 0) (i + q.length) start = some (i, UInt8.ofNat k) := by
  obtain ⟨keys, -, ht⟩ := Powerset.tabulates_of_tabulate (respects paths.toArray) htable
  have hread : ∀ (n : Nat) (key : PathSubset), keys[n]? = some key →
      ∃ depth, depth < 65535 ∧ ReadTo depth key := by
    intro n key hkey
    obtain ⟨depth, hdepth, hreaches⟩ := ht.reaches n key hkey
    obtain ⟨hlt, -⟩ := Array.getElem?_eq_some_iff.mp hkey
    have hkeys := ht.few
    exact ⟨depth, by omega, readTo_of_reaches (by simpa using hfew) hreaches (by omega)⟩
  have hwalk : dfa.firstResult? text (dfa.entry 0) (i + q.length) start =
      Dfa.earliest (ends paths.toArray text) start (initial paths.toArray) (i + q.length) := by
    have hsame : ∀ (key : PathSubset) (s : TableState) (cursor : Nat),
        (powerset paths.toArray).Represents keys key s →
        s.resultIds.choose? (cursor == 0) = (resultIds paths.toArray key).choose? (cursor == 0) :=
      fun key s cursor hs => congrArg (ResultIds.choose? · (cursor == 0)) hs.resultIds
    rw [Dfa.firstResult?]
    refine Dfa.walkBack_eq_earliest ht hsame ?_ ?_ ?_ ?_ rfl (by omega) hstop
    · intro key a b hle hsome
      by_cases hb : b = 0
      · obtain rfl : a = b := by omega
        exact hsome
      · have hfalse : (b == 0) = false := by simpa using hb
        rw [hfalse] at hsome
        exact ResultIds.isSome_choose? hsome _
    · intro key cursor j hdead
      obtain rfl : key = [] := List.isEmpty_iff.mp hdead
      rfl
    · intro n key cursor hkey
      obtain ⟨depth, -, hdepth⟩ := hread n key hkey
      exact ends_self (by simpa using hfew) hdepth cursor
    · intro n key cursor u j hkey hu hj
      obtain ⟨depth, hlt, hdepth⟩ := hread n key hkey
      exact ends_succ hdepth hlt hu hj
  obtain ⟨k, hk, hends⟩ := ends_eq_some hfew hfind
  refine ⟨k, hk, ?_⟩
  rw [hwalk, Dfa.earliest]
  refine findSome?_range'_eq_some_iff.mpr
    ⟨i, hstart, by omega, by rw [hends]; rfl, fun j hj hlt => ?_⟩
  rw [ends_eq_none hfew (hearlier j hj hlt), Option.map_none]

/-- The table of paths knows the captures of the leftmost match by its end. -/
theorem PathTable.lookUp?_eq {p : Pattern} {nfa : Nfa} (h : p.Compiled nfa) {config : Config}
    {t : PathTable} (hbuild : PathTable.build nfa config = .ok (some t)) {text : Text}
    {start i : Nat} {y : MatchState} (hmatch : p.FirstMatch text start i y)
    (hstop : y.cursor ≤ text.size) :
    t.lookUp? text y.cursor start = some ⟨y.slots⟩ := by
  obtain ⟨paths, hpaths⟩ : ∃ paths, nfa.allPaths? config.pathLimit = some paths := by
    cases hpaths : nfa.allPaths? config.pathLimit with
    | none => simp [PathTable.build, hpaths] at hbuild
    | some paths => exact ⟨paths, rfl⟩
  obtain ⟨hcount, hall, -⟩ := h.allPaths?_spec hpaths
  have hfew : paths.length ≤ 254 := Nat.le_trans hcount (Nat.min_le_right _ _)
  have hat : ∀ j, start ≤ j → j ≤ i → p.matchAt? text j = _ := fun j _ hle =>
    h.matchAt?_eq_find? hpaths (Nat.le_trans hle hmatch.le_size)
  have hearlier : ∀ j, start ≤ j → j < i → paths.find? (·.fits text j) = none := by
    intro j hj hlt
    have := hmatch.earlier j hj hlt
    rwa [hat j hj (Nat.le_of_lt hlt), Option.map_eq_none_iff] at this
  obtain ⟨q, hq, rfl⟩ : ∃ q, paths.find? (·.fits text i) = some q ∧
      ⟨i + q.length, q.slots.movedBy i⟩ = y := by
    have := hmatch.isMatch
    rwa [hat i hmatch.start_le (Nat.le_refl i), Option.map_eq_some_iff] at this
  have hsize : q.slots.size = 2 * nfa.groupCount := by
    rw [(hall q (List.mem_of_find?_eq_some hq)).size_slots, h.groupCount]
  unfold PathTable.build at hbuild
  rw [hpaths] at hbuild
  split at hbuild
  · simp at hbuild
  · simp at hbuild
  · -- There is only one path, so where its end is tells where it starts.
    rename_i only honly
    obtain rfl := Option.some.inj honly
    obtain rfl : q = only := List.mem_singleton.mp (List.mem_of_find?_eq_some hq)
    obtain rfl := Option.some.inj (Except.ok.inj hbuild)
    have hlength : (offsetsOf nfa.groupCount q).length = q.length := rfl
    have hfits : q.length ≤ i + q.length := Nat.le_add_left _ _
    simp only [lookUp?, List.getElem?_toArray, List.getElem?_cons_zero, Option.filter_some,
      hlength, hfits, decide_true, if_true, Option.map_some, Nat.add_sub_cancel,
      Offsets.fromStart, offsetsOf_movedBy hsize]
  · rename_i several hseveral
    obtain rfl := Option.some.inj hseveral
    dsimp only at hbuild
    split at hbuild
    · rename_i dfa htable
      obtain rfl := Option.some.inj (Except.ok.inj hbuild)
      obtain ⟨k, hk, hresult⟩ :=
        PathSubset.firstResult?_eq hfew htable hmatch.start_le hstop hq hearlier
      have hlt : k < 256 := by
        obtain ⟨hlt, -⟩ := List.getElem?_eq_some_iff.mp hk
        omega
      simp only [lookUp?, hresult, Option.bind_some, UInt8.toNat_ofNat_of_lt' hlt,
        List.getElem?_toArray, List.getElem?_map, hk, Option.map_some, offsetsOf_fromEnd hsize]
    · simp at hbuild

/-- A path goes on wherever its automaton does. -/
theorem Path.exists_mem_of_proceeds {nfa : Nfa} {q : Path} {paths : List Path}
    {atStart atStart' : Bool} {t : Nat} (hextend : q.extend? nfa = some paths)
    (hq : atStart = true → q.sets = []) (hstep : nfa.Proceeds (atStart, q.state) (atStart', t)) :
    ∃ r ∈ paths, r.state = t ∧ (atStart' = true → r.sets = []) := by
  cases hstep with
  | read hs =>
    simp only [extend?, hs, Option.some.injEq] at hextend
    subst hextend
    exact ⟨_, List.mem_singleton_self _, rfl, by simp⟩
  | pass hunit hcaret ht =>
    rw [Nfa.successors] at ht
    cases hs : nfa.state q.state <;> simp only [extend?, hs, reduceCtorEq, Option.some.injEq]
      at hextend
    case unit set next => exact absurd hs (hunit set next)
    case accept => simp [hs, NfaState.successors] at ht
    case split targets =>
      subst hextend
      simp only [hs, NfaState.successors] at ht
      exact ⟨_, List.mem_map_of_mem ht, rfl, hq⟩
    case assert guard next =>
      cases guard <;> simp only [reduceCtorEq, Option.some.injEq] at hextend
      have hsets := hq (hcaret next hs)
      simp only [hs, NfaState.successors, List.mem_singleton] at ht
      subst hextend ht
      simp [hsets]
    all_goals
      subst hextend
      simp only [hs, NfaState.successors, List.mem_singleton] at ht
      exact ⟨_, List.mem_singleton_self _, ht.symm, hq⟩

/-- Where a path ends, no look-ahead was passed. -/
theorem Path.Ends.looksFit {nfa : Nfa} {q : Path} (h : q.Ends nfa) :
    ∀ atStart, (atStart = true → q.sets = []) → nfa.LooksFit atStart q.state := by
  induction h with
  | @extend q paths hextend _ ih =>
    intro atStart hq
    refine Nfa.looksFit_of_steps (fun body negated next hs => ?_) fun b t hstep => ?_
    · simp [extend?, hs] at hextend
    · obtain ⟨r, hr, rfl, hsets⟩ := exists_mem_of_proceeds hextend hq hstep
      exact ih r hr b hsets

theorem PathTable.looksFit_of_build {nfa : Nfa} {config : Config} {t : PathTable}
    (hbuild : PathTable.build nfa config = .ok (some t)) (atStart : Bool) :
    nfa.LooksFit atStart nfa.start := by
  cases hpaths : nfa.allPaths? config.pathLimit with
  | none => simp [PathTable.build, hpaths] at hbuild
  | some paths =>
    obtain ⟨-, halong⟩ := Option.ite_none_right_eq_some.mp hpaths
    have hends := Nfa.ends_of_acceptAlong halong _ (List.mem_singleton_self _)
    exact hends.looksFit atStart fun _ => rfl

/-- A pattern that has a table of paths looks behind nowhere. -/
theorem PathTable.lookBehinds_of_build {nfa : Nfa} {config : Config} {t : PathTable}
    (hbuild : PathTable.build nfa config = .ok (some t)) : nfa.lookBehinds = [] := by
  cases hempty : nfa.lookBehinds with
  | nil => rfl
  | cons sets rest => simp [PathTable.build, Nfa.allPaths?, hempty] at hbuild

/-- Wherever a search finds a match, by simulation or by the forward table, looking up its end gives
the captures that the simulation finds. -/
theorem PathTable.lookUp?_eq_findSlots {s : Source} {p : Pattern} {q : NumberedPattern}
    {config : Config} {nfa : Nfa} {t : PathTable} (hparse : s.parse = .ok p)
    (hnumber : NumberedPattern.number { p with } = .ok q)
    (hbuild : Nfa.build q config .forward = .ok nfa)
    (hpaths : PathTable.build nfa config = .ok (some t)) (text : Text) {start : Nat}
    (hstart : start ≤ text.size) :
    (∀ slots, nfa.findSlots text start text.size p.flags.sticky = some slots →
      ∃ stop : Nat, slots.stop 0 = stop ∧ t.lookUp? text stop start = some ⟨slots⟩) ∧
    ∀ maxStates dfa stop, nfa.forwardTable maxStates = .ok dfa →
      dfa.lastEnd? text (dfa.entry (ForwardSubset.entryFor nfa.context p.flags.sticky start))
        (start - min start nfa.context) = some stop →
      ∃ slots, nfa.findSlots text start text.size p.flags.sticky = some slots ∧
        t.lookUp? text stop start = some ⟨slots⟩ := by
  have hcompiled := Source.compiled_of_build hparse hnumber hbuild
  have hgroups := (Source.wellFormed_of_parse hparse).2
  have hslots := hcompiled.findSlots_eq_leftmost? hgroups hstart
  have hlookUp : ∀ y, p.leftmost? text start = some y →
      y.slots.stop 0 = y.cursor ∧ t.lookUp? text y.cursor start = some ⟨y.slots⟩ := by
    intro y hy
    obtain ⟨i, hmatch, -⟩ := Pattern.exists_of_leftmost? hstart hy
    obtain ⟨-, hsize, -, -, hstop⟩ := hcompiled.bounds hgroups hmatch.le_size hmatch.isMatch
    exact ⟨hstop, lookUp?_eq hcompiled hpaths hmatch hsize⟩
  refine ⟨fun slots hfind => ?_, fun maxStates dfa stop htable hend => ?_⟩
  · rw [hslots, Option.map_eq_some_iff] at hfind
    obtain ⟨y, hy, rfl⟩ := hfind
    exact ⟨y.cursor, hlookUp y hy⟩
  · have hbehind : nfa.lookBehinds.length ≤ 65536 := by simp [lookBehinds_of_build hpaths]
    rw [hcompiled.lastEnd?_eq hbehind (looksFit_of_build hpaths) htable hstart,
      Option.map_eq_some_iff] at hend
    obtain ⟨y, hy, rfl⟩ := hend
    exact ⟨y.slots, by rw [hslots, hy, Option.map_some], (hlookUp y hy).2⟩

/-- The match of `(a|(b))c` that ends behind the third unit of `xacy` has no second group. -/
theorem PathTable.lookUp?_eq_findSlots_alternatives :
    ∃ p q nfa t dfa, Source.parse ⟨"(a|(b))c", {}, {}⟩ = .ok p ∧
      NumberedPattern.number { p with } = .ok q ∧ Nfa.build q {} .forward = .ok nfa ∧
      PathTable.build nfa {} = .ok (some t) ∧ nfa.forwardTable 100 = .ok dfa ∧
      dfa.lastEnd? #[120, 97, 99, 121] (dfa.entry (ForwardSubset.entryFor nfa.context false 0)) 0 =
        some 3 ∧
      t.lookUp? #[120, 97, 99, 121] 3 0 = some ⟨#[1, 3, 1, 2, -1, -1]⟩ := by
  let text : Text := #[120, 97, 99, 121]
  let p : Pattern :=
    ⟨.one (.cons (.group (some 1) none
      (.more (.cons (.unit (.single 97)) .nil)
        (.one (.cons (.group (some 2) none (.one (.cons (.unit (.single 98)) .nil))) .nil))))
      (.cons (.unit (.single 99)) .nil)), {}, 3, [], 0⟩
  have hparse : Source.parse ⟨"(a|(b))c", {}, {}⟩ = .ok p := by cbv
  have hok : ((Nfa.build ⟨p, true⟩ {} .forward).toOption.any fun nfa =>
      (PathTable.build nfa {}).toOption.any fun t => (nfa.forwardTable 100).toOption.any fun dfa =>
        decide (t.isSome ∧
          nfa.findSlots text 0 4 false = some #[1, 3, 1, 2, -1, -1] ∧
          dfa.lastEnd? text (dfa.entry (ForwardSubset.entryFor nfa.context false 0)) 0 = some 3)) =
      true := by cbv
  obtain ⟨nfa, hbuild, hok⟩ := exists_eq_ok_of_any hok
  obtain ⟨built, hpaths, hok⟩ := exists_eq_ok_of_any hok
  obtain ⟨dfa, htable, hok⟩ := exists_eq_ok_of_any hok
  obtain ⟨hsome, hslots, hend⟩ := of_decide_eq_true hok
  obtain ⟨t, rfl⟩ := Option.isSome_iff_exists.mp hsome
  obtain ⟨slots, hfind, hlookUp⟩ := (lookUp?_eq_findSlots hparse (q := ⟨p, true⟩) rfl hbuild hpaths
    text (Nat.zero_le _)).2 100 dfa 3 htable hend
  obtain rfl := Option.some.inj (hslots.symm.trans hfind)
  exact ⟨p, ⟨p, true⟩, nfa, t, dfa, hparse, rfl, hbuild, hpaths, htable, hend, hlookUp⟩

end UnitRegex
