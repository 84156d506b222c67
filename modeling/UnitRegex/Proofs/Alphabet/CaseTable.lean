import Mathlib.Data.Finset.Card
import UnitRegex.Alphabet.CaseTable
import UnitRegex.Proofs.Alphabet.Algebra

/-!
The table of case equivalents against canonical forms. For any canonical forms the table knows
exactly the units that share theirs with another unit, with the classes of those units, and closing
a set by the table adds what is equivalent to a member. So the table closes sets as the classes do.
-/

namespace UnitRegex

namespace CaseTable

variable {canonical : CodeUnit → CodeUnit} {v c d : CodeUnit} {i j : Nat}

/-! ### Pairs by their forms -/

theorem formBefore_total (a b : CodeUnit × CodeUnit) : formBefore a b || formBefore b a := by
  simp only [formBefore, Bool.or_eq_true, decide_eq_true_eq, Bool.and_eq_true, beq_iff_eq,
    UInt16.lt_iff_toNat_lt, UInt16.le_iff_toNat_le, ← UInt16.toNat_inj]
  omega

theorem formBefore_trans (a b c : CodeUnit × CodeUnit) (hab : formBefore a b = true)
    (hbc : formBefore b c = true) : formBefore a c = true := by
  simp only [formBefore, Bool.or_eq_true, decide_eq_true_eq, Bool.and_eq_true, beq_iff_eq,
    UInt16.lt_iff_toNat_lt, UInt16.le_iff_toNat_le, ← UInt16.toNat_inj] at *
  omega

theorem mem_byForm : (v, c) ∈ byForm canonical ↔ canonical c = v := by
  simp only [byForm, List.mem_toArray, List.mem_mergeSort, List.mem_map, Prod.mk.injEq]
  constructor
  · rintro ⟨_, -, hv, rfl⟩
    exact hv
  · intro hv
    exact ⟨c, mem_allUnits c, hv, rfl⟩

theorem form_le (hij : i ≤ j) (hj : j < (byForm canonical).size) :
    (byForm canonical)[i].1.toNat ≤ (byForm canonical)[j].1.toNat := by
  rcases Nat.eq_or_lt_of_le hij with rfl | hij
  · exact Nat.le_refl _
  · have hsorted : (byForm canonical).toList.Pairwise fun a b => formBefore a b = true :=
      List.pairwise_mergeSort formBefore_trans formBefore_total _
    have hbefore := List.pairwise_iff_getElem.mp hsorted i j (Nat.lt_trans hij hj) hj hij
    simp only [formBefore, Bool.or_eq_true, decide_eq_true_eq, Bool.and_eq_true, beq_iff_eq,
      UInt16.lt_iff_toNat_lt, ← UInt16.toNat_inj, Array.getElem_toList] at hbefore
    omega

theorem nodup_allUnits : allUnits.Nodup := by
  rw [allUnits, List.nodup_map_iff_inj_on List.nodup_range]
  intro m hm n hn hmn
  rw [List.mem_range] at hm hn
  have htoNat (k : Nat) (hk : k < 65536) : (UInt16.ofNat k).toNat = k := by
    rw [UInt16.toNat_ofNat']
    omega
  rw [← htoNat m hm, ← htoNat n hn, hmn]

/-- No unit stands in two pairs. -/
theorem nodup_byForm : ((byForm canonical).toList.map (·.2)).Nodup := by
  have hperm : ((byForm canonical).toList.map (·.2)).Perm
      ((allUnits.map fun c => (canonical c, c)).map (·.2)) :=
    (List.mergeSort_perm _ formBefore).map _
  rw [hperm.nodup_iff, List.map_map]
  have hid : ((fun x : CodeUnit × CodeUnit => x.2) ∘ fun c => (canonical c, c)) = id := rfl
  rw [hid, List.map_id]
  exact nodup_allUnits

/-! ### Classes -/

/-- A class holds the pairs with its form, as far as they follow one another. -/
theorem classEnd_spec (pairs : Array (CodeUnit × CodeUnit)) (form : CodeUnit) (j : Nat) :
    (∀ k (hk : k < pairs.size), j ≤ k → k < classEnd pairs form j → pairs[k].1 = form) ∧
      ∀ h : classEnd pairs form j < pairs.size, pairs[classEnd pairs form j].1 ≠ form := by
  fun_induction classEnd pairs form j with
  | case1 j h hform ih =>
    refine ⟨fun k hk hjk hend => ?_, ih.2⟩
    rcases Nat.eq_or_lt_of_le hjk with rfl | hjk
    · exact hform
    · exact ih.1 k hk hjk hend
  | case2 j h hform =>
    exact ⟨fun k _ hjk hend => absurd hjk (Nat.not_le_of_lt hend), fun _ => hform⟩
  | case3 j h =>
    exact ⟨fun k _ hjk hend => absurd hjk (Nat.not_le_of_lt hend), fun h' => absurd h' h⟩

/-- Adding a class leaves the spans of the others and gives its own units the new one. -/
theorem Classes.spans_add {done : Classes} {units : Array CodeUnit}
    (hspans : ∀ e ∈ done.entries, e.2.2 ≤ done.members.size ∧
      ∀ d, d ∈ done.members.extract e.2.1 e.2.2 ↔ canonical d = canonical e.1)
    (hunits : ∀ c, c ∈ units ↔ canonical c = v) :
    ∀ e ∈ (done.add units).entries, e.2.2 ≤ (done.add units).members.size ∧
      ∀ d, d ∈ (done.add units).members.extract e.2.1 e.2.2 ↔ canonical d = canonical e.1 := by
  unfold Classes.add
  split
  · intro e he
    rcases Array.mem_append.mp he with he | he
    · obtain ⟨hle, hspan⟩ := hspans e he
      have hold : (done.members ++ units).extract e.2.1 e.2.2 =
          done.members.extract e.2.1 e.2.2 := by
        simp [Array.extract_append, Nat.sub_eq_zero_of_le hle]
      rw [hold, Array.size_append]
      exact ⟨Nat.le_trans hle (Nat.le_add_right _ _), hspan⟩
    · obtain ⟨c, hc, rfl⟩ := Array.mem_map.mp he
      refine ⟨Nat.le_of_eq Array.size_append.symm, fun d => ?_⟩
      rw [Array.extract_append_right, Array.extract_size, hunits d, (hunits c).mp hc]
  · exact hspans

/-- Adding a class enters its units if there are several. -/
theorem Classes.exists_entry_add {done : Classes} {units : Array CodeUnit} :
    (∃ e ∈ (done.add units).entries, e.1 = c) ↔
      (∃ e ∈ done.entries, e.1 = c) ∨ 1 < units.size ∧ c ∈ units := by
  unfold Classes.add
  split
  · rename_i hsize
    rw [and_iff_right hsize]
    simp only [Array.mem_append, Array.mem_map]
    constructor
    · rintro ⟨e, he | ⟨d, hd, rfl⟩, rfl⟩
      · exact .inl ⟨e, he, rfl⟩
      · exact .inr hd
    · rintro (⟨e, he, rfl⟩ | hc)
      · exact ⟨e, .inl he, rfl⟩
      · exact ⟨_, .inr ⟨c, hc, rfl⟩, rfl⟩
  · rename_i hsize
    exact (or_iff_left fun h => hsize h.1).symm

/-- What is known when the pairs in front of an index have been cut into classes: none of them has
the form of a later pair, and exactly the units in them that have an equivalent are entered, each
with the span of its class. -/
structure Cuts (canonical : CodeUnit → CodeUnit) (i : Nat) (done : Classes) : Prop where
  border : ∀ a b (ha : a < (byForm canonical).size) (hb : b < (byForm canonical).size),
    a < i → i ≤ b → (byForm canonical)[a].1 ≠ (byForm canonical)[b].1
  spans : ∀ e ∈ done.entries, e.2.2 ≤ done.members.size ∧
    ∀ d, d ∈ done.members.extract e.2.1 e.2.2 ↔ canonical d = canonical e.1
  entered : ∀ c, (∃ e ∈ done.entries, e.1 = c) ↔
    (∃ a < i, (byForm canonical)[a]? = some (canonical c, c)) ∧
      ∃ d, d ≠ c ∧ canonical d = canonical c

namespace Cuts

variable {done : Classes}

theorem empty : Cuts canonical 0 {} where
  border _ _ _ _ h := absurd h (Nat.not_lt_zero _)
  spans e he := by simp at he
  entered c := by simp

/-- The class that begins at an index holds all pairs with its form. -/
theorem form_eq_iff (h : Cuts canonical i done) (hi : i < (byForm canonical).size) {a : Nat}
    (ha : a < (byForm canonical).size) :
    (byForm canonical)[a].1 = (byForm canonical)[i].1 ↔
      i ≤ a ∧ a < classEnd (byForm canonical) (byForm canonical)[i].1 i := by
  obtain ⟨hsame, hend⟩ := classEnd_spec (byForm canonical) (byForm canonical)[i].1 i
  constructor
  · intro hform
    constructor
    · apply Nat.le_of_not_lt
      intro hlt
      exact h.border a i ha hi hlt (Nat.le_refl i) hform
    · apply Nat.lt_of_not_le
      intro hle
      -- The pair at the end of the class lies between two pairs of its form.
      have hj := Nat.lt_of_le_of_lt hle ha
      have hfront := @form_le canonical _ _ (le_classEnd _ (byForm canonical)[i].1 i) hj
      have hback := form_le hle ha
      rw [hform] at hback
      exact hend hj (UInt16.toNat_inj.mp (Nat.le_antisymm hback hfront))
  · rintro ⟨hle, hlt⟩
    exact hsame a ha hle hlt

theorem exists_pair_iff (h : Cuts canonical i done) (hi : i < (byForm canonical).size) :
    (∃ a, (i ≤ a ∧ a < classEnd (byForm canonical) (byForm canonical)[i].1 i) ∧
      (byForm canonical)[a]? = some (canonical c, c)) ↔ canonical c = (byForm canonical)[i].1 := by
  constructor
  · rintro ⟨a, hrange, hget⟩
    obtain ⟨ha, hget⟩ := Array.getElem?_eq_some_iff.mp hget
    rw [← (h.form_eq_iff hi ha).mpr hrange, hget]
  · intro hform
    obtain ⟨a, ha, hget⟩ := Array.mem_iff_getElem.mp (mem_byForm.mpr (rfl : canonical c = _))
    refine ⟨a, (h.form_eq_iff hi ha).mp ?_, Array.getElem?_eq_some_iff.mpr ⟨ha, hget⟩⟩
    rw [hget]
    exact hform

/-- The units of the class that begins at an index. -/
theorem mem_class (h : Cuts canonical i done) (hi : i < (byForm canonical).size) :
    c ∈ ((byForm canonical).extract i
      (classEnd (byForm canonical) (byForm canonical)[i].1 i)).map (·.2) ↔
      canonical c = (byForm canonical)[i].1 := by
  rw [← h.exists_pair_iff hi, Array.mem_map]
  constructor
  · rintro ⟨⟨v, c⟩, hmem, rfl⟩
    obtain ⟨k, hk, hget⟩ := Array.mem_extract_iff_getElem.mp hmem
    refine ⟨i + k, by omega, Array.getElem?_eq_some_iff.mpr ⟨by omega, ?_⟩⟩
    have hpair : (v, c) ∈ byForm canonical := hget ▸ Array.getElem_mem _
    rw [hget, mem_byForm.mp hpair]
  · rintro ⟨a, ⟨hle, hlt⟩, hget⟩
    obtain ⟨ha, hget⟩ := Array.getElem?_eq_some_iff.mp hget
    refine ⟨(canonical c, c), Array.mem_extract_iff_getElem.mpr ⟨a - i, by omega, ?_⟩, rfl⟩
    simpa only [Nat.add_sub_cancel' hle] using hget

/-- A class has more than one member if its members have equivalents. -/
theorem one_lt_size_class_iff (h : Cuts canonical i done) (hi : i < (byForm canonical).size)
    (hc : canonical c = (byForm canonical)[i].1) :
    1 < (((byForm canonical).extract i
      (classEnd (byForm canonical) (byForm canonical)[i].1 i)).map (·.2)).size ↔
      ∃ d, d ≠ c ∧ canonical d = canonical c := by
  have hmem (d : CodeUnit) := h.mem_class (c := d) hi
  generalize hcls : ((byForm canonical).extract i
    (classEnd (byForm canonical) (byForm canonical)[i].1 i)).map (·.2) = cls at hmem ⊢
  have hnodup : cls.toList.Nodup := by
    rw [← hcls, Array.toList_map, Array.toList_extract]
    exact nodup_byForm.sublist (((List.take_sublist _ _).trans (List.drop_sublist _ _)).map _)
  have hcard : cls.toList.toFinset.card = cls.size := List.toFinset_card_of_nodup hnodup
  rw [← hcard, Finset.one_lt_card_iff_nontrivial]
  constructor
  · intro hmany
    obtain ⟨d, hd, hne⟩ := hmany.exists_ne c
    refine ⟨d, hne, ?_⟩
    rw [hc, ← hmem d]
    simpa using hd
  · rintro ⟨d, hne, hd⟩
    refine ⟨d, ?_, c, ?_, hne⟩
    · simpa using (hmem d).mpr (hd.trans hc)
    · simpa using (hmem c).mpr hc

/-- The next class is cut off. -/
theorem add (h : Cuts canonical i done) (hi : i < (byForm canonical).size) :
    Cuts canonical (classEnd (byForm canonical) (byForm canonical)[i].1 i)
      (done.add (((byForm canonical).extract i
        (classEnd (byForm canonical) (byForm canonical)[i].1 i)).map (·.2))) := by
  have hmem (d : CodeUnit) := h.mem_class (c := d) hi
  have hmany (d : CodeUnit) (hd : canonical d = _) := h.one_lt_size_class_iff hi hd
  have hpair (d : CodeUnit) := h.exists_pair_iff (c := d) hi
  have hfront : i ≤ classEnd (byForm canonical) (byForm canonical)[i].1 i := le_classEnd _ _ i
  have hborder : ∀ a b (ha : a < (byForm canonical).size) (hb : b < (byForm canonical).size),
      a < classEnd (byForm canonical) (byForm canonical)[i].1 i →
        classEnd (byForm canonical) (byForm canonical)[i].1 i ≤ b →
          (byForm canonical)[a].1 ≠ (byForm canonical)[b].1 := by
    intro a b ha hb hlt hle hform
    by_cases hai : a < i
    · exact h.border a b ha hb hai (Nat.le_trans hfront hle) hform
    · have hsame := (h.form_eq_iff hi ha).mpr ⟨Nat.le_of_not_lt hai, hlt⟩
      exact Nat.not_lt_of_le hle ((h.form_eq_iff hi hb).mp (hform.symm.trans hsame)).2
  generalize hform : (byForm canonical)[i].1 = form at *
  generalize classEnd (byForm canonical) form i = j at *
  generalize ((byForm canonical).extract i j).map (·.2) = units at *
  -- A pair in front of the new border is an old one or one of the class.
  have hearlier (c : CodeUnit) : (∃ a < j, (byForm canonical)[a]? = some (canonical c, c)) ↔
      (∃ a < i, (byForm canonical)[a]? = some (canonical c, c)) ∨ canonical c = form := by
    rw [← hpair c]
    constructor
    · rintro ⟨a, hlt, hget⟩
      by_cases hai : a < i
      · exact .inl ⟨a, hai, hget⟩
      · exact .inr ⟨a, ⟨Nat.le_of_not_lt hai, hlt⟩, hget⟩
    · rintro (⟨a, hlt, hget⟩ | ⟨a, ⟨-, hlt⟩, hget⟩)
      · exact ⟨a, Nat.lt_of_lt_of_le hlt hfront, hget⟩
      · exact ⟨a, hlt, hget⟩
  refine ⟨hborder, Classes.spans_add h.spans hmem, fun c => ?_⟩
  rw [Classes.exists_entry_add, h.entered c, hearlier c, hmem c, or_and_right]
  refine or_congr_right ?_
  constructor
  · rintro ⟨hsize, hc⟩
    exact ⟨hc, (hmany c hc).mp hsize⟩
  · rintro ⟨hc, hother⟩
    exact ⟨(hmany c hc).mpr hother, hc⟩

/-- All pairs have been cut into classes. -/
theorem cut (h : Cuts canonical i done) :
    ∃ n, (byForm canonical).size ≤ n ∧
      Cuts canonical n (CaseTable.cut (byForm canonical) i done) := by
  generalize hpairs : byForm canonical = pairs at *
  fun_induction CaseTable.cut pairs i done with
  | case1 i done hi j _ ih =>
    subst hpairs
    exact ih (h.add hi)
  | case2 i done hi => exact ⟨i, Nat.le_of_not_lt hi, h⟩

end Cuts

/-! ### The table -/

/-- In a row of units in order those up to a bound come first. -/
theorem mem_takeWhile_le {l : List CodeUnit} (h : l.Pairwise (· ≤ ·)) {bound : CodeUnit} :
    c ∈ l.takeWhile (· ≤ bound) ↔ c ∈ l ∧ c ≤ bound := by
  induction l with
  | nil => simp
  | cons a l ih =>
    obtain ⟨ha, hl⟩ := List.pairwise_cons.mp h
    rw [List.takeWhile_cons]
    split
    · rename_i hle
      rw [List.mem_cons, List.mem_cons, ih hl, or_and_right]
      refine or_congr_left (iff_self_and.mpr ?_)
      rintro rfl
      exact of_decide_eq_true hle
    · rename_i hle
      refine iff_of_false List.not_mem_nil ?_
      rintro ⟨hc, hbound⟩
      apply hle
      rcases List.mem_cons.mp hc with rfl | hc
      · exact decide_eq_true hbound
      · exact decide_eq_true (UInt16.le_trans (ha c hc) hbound)

/-- A table that tells the equivalents of a unit under some canonical forms: it holds the units that
have any, in order, and each with all units that have the same form. -/
structure Tells (t : CaseTable) (canonical : CodeUnit → CodeUnit) : Prop where
  sorted : t.foldable.toList.Pairwise (· ≤ ·)
  mem_foldable : ∀ c, c ∈ t.foldable ↔ ∃ d, d ≠ c ∧ canonical d = canonical c
  spans : ∀ i (hi : i < t.foldable.size), ∃ start stop, t.spans[i]? = some (start, stop) ∧
    ∀ d, d ∈ t.members.extract start stop ↔ canonical d = canonical t.foldable[i]

/-- A table of classes puts their entries into the order of the units. -/
theorem tells_ofClasses {done : Classes}
    (hspans : ∀ e ∈ done.entries, ∀ d,
      d ∈ done.members.extract e.2.1 e.2.2 ↔ canonical d = canonical e.1)
    (hentered : ∀ c, (∃ e ∈ done.entries, e.1 = c) ↔ ∃ d, d ≠ c ∧ canonical d = canonical c) :
    (ofClasses done).Tells canonical := by
  have hsorted : (done.entries.toList.mergeSort fun a b => a.1 ≤ b.1).Pairwise
      fun a b => decide (a.1 ≤ b.1) = true := by
    apply List.pairwise_mergeSort
    · intro a b c hab hbc
      rw [decide_eq_true_eq] at hab hbc ⊢
      exact UInt16.le_trans hab hbc
    · intro a b
      rw [Bool.or_eq_true, decide_eq_true_eq, decide_eq_true_eq]
      exact UInt16.le_total a.1 b.1
  have hmem (e : CodeUnit × Nat × Nat) :
      e ∈ done.entries.toList.mergeSort (fun a b => a.1 ≤ b.1) ↔ e ∈ done.entries := by
    rw [List.mem_mergeSort, Array.mem_toList_iff]
  unfold ofClasses
  generalize done.entries.toList.mergeSort (fun a b => a.1 ≤ b.1) = entries at hsorted hmem ⊢
  refine ⟨?_, fun c => ?_, fun i hi => ?_⟩
  · dsimp only
    rw [List.pairwise_map]
    exact hsorted.imp fun hab => by simpa using hab
  · rw [← hentered c, List.mem_toArray, List.mem_map]
    simp only [hmem]
  · have hlt : i < entries.length := by simpa using hi
    refine ⟨entries[i].2.1, entries[i].2.2, by simp [hlt], fun d => ?_⟩
    simpa using hspans entries[i] ((hmem _).mp (List.getElem_mem hlt)) d

theorem tells_build (canonical : CodeUnit → CodeUnit) : (build canonical).Tells canonical := by
  obtain ⟨n, hn, hcuts⟩ := (@Cuts.empty canonical).cut
  refine tells_ofClasses (fun e he => (hcuts.spans e he).2) fun c => ?_
  rw [hcuts.entered c]
  refine and_iff_right ?_
  obtain ⟨a, ha, hget⟩ := Array.mem_iff_getElem.mp (mem_byForm.mpr (rfl : canonical c = _))
  exact ⟨a, Nat.lt_of_lt_of_le ha hn, Array.getElem?_eq_some_iff.mpr ⟨ha, hget⟩⟩

namespace Tells

variable {t : CaseTable}

theorem rises (h : t.Tells canonical) (c : CodeUnit) : Rises (compare · c) t.foldable := by
  refine h.sorted.imp fun {a b} hab => ?_
  rw [UInt16.le_iff_toNat_le] at hab
  simp only [Std.compare_eq_lt, Std.compare_eq_gt, UInt16.lt_iff_toNat_lt]
  omega

/-- The equivalents of a unit are those with its canonical form, if there are others than itself. -/
theorem mem_equivalents (h : t.Tells canonical) : d ∈ t.equivalents c ↔
    canonical d = canonical c ∧ ∃ x, x ≠ c ∧ canonical x = canonical c := by
  unfold equivalents
  split
  · rename_i i hbisect
    obtain ⟨hi, heq⟩ := bisect_eq_ok hbisect
    have hc : t.foldable[i] = c := Std.compare_eq_iff_eq.mp heq
    obtain ⟨start, stop, hspan, hmem⟩ := h.spans i hi
    have hother := (h.mem_foldable c).mp (hc ▸ Array.getElem_mem hi)
    rw [hspan, and_iff_left hother, ← hc, ← hmem d]
    exact Array.mem_toList_iff
  · rename_i i hbisect
    refine iff_of_false List.not_mem_nil fun ⟨_, hother⟩ => ?_
    obtain ⟨j, hj⟩ := (exists_bisect_eq_ok_iff (h.rises c)).mpr
      ⟨c, (h.mem_foldable c).mpr hother, Std.compare_eq_iff_eq.mpr rfl⟩
    rw [hbisect] at hj
    cases hj

/-- The units that are looked up for an interval are those of the table that lie in it. -/
theorem mem_within (h : t.Tells canonical) {r : Interval} :
    c ∈ t.within r ↔ c ∈ r ∧ ∃ d, d ≠ c ∧ canonical d = canonical c := by
  have hpoint : t.foldable.toList.Pairwise fun a b => decide (b < r.lo) = true →
      decide (a < r.lo) = true := by
    refine h.sorted.imp fun {a b} hab => ?_
    simp only [decide_eq_true_eq, UInt16.lt_iff_toNat_lt, UInt16.le_iff_toNat_le] at hab ⊢
    omega
  rw [within, mem_takeWhile_le (h.sorted.sublist (List.drop_sublist _ _)),
    mem_drop_partitionPoint hpoint, h.mem_foldable c, Interval.mem_iff, UInt16.le_iff_toNat_le,
    decide_eq_false_iff_not, UInt16.lt_iff_toNat_lt, Nat.not_lt]
  tauto

/-- Closing a set by the table adds what has the canonical form of a member. -/
theorem contains_fold (h : t.Tells canonical) {s : CharSet} :
    (t.fold s).contains c = true ↔ ∃ d, canonical c = canonical d ∧ s.contains d = true := by
  have hextra : (∃ r ∈ s.intervals.flatMap fun r =>
      (t.within r).flatMap fun d => (t.equivalents d).map Interval.single, c ∈ r) ↔
      ∃ d, (canonical c = canonical d ∧ ∃ x, x ≠ d ∧ canonical x = canonical d) ∧
        s.contains d = true := by
    simp only [List.mem_flatMap, List.mem_map, h.mem_within, h.mem_equivalents,
      CharSet.contains_iff, CharSet.mem_iff]
    constructor
    · rintro ⟨_, ⟨r, hr, d, ⟨hd, -⟩, e, he, rfl⟩, hc⟩
      rw [← Interval.mem_single.mp hc] at he
      exact ⟨d, he, r, hr, hd⟩
    · rintro ⟨d, he, r, hr, hd⟩
      exact ⟨.single c, ⟨r, hr, d, ⟨hd, he.2⟩, c, he, rfl⟩, Interval.mem_single.mpr rfl⟩
  unfold fold
  generalize s.intervals.flatMap (fun r =>
    (t.within r).flatMap fun d => (t.equivalents d).map Interval.single) = extra at hextra ⊢
  -- A unit that is equivalent to a member is that member itself, or it comes with the class.
  have hclosed : (∃ d, canonical c = canonical d ∧ s.contains d = true) ↔
      (∃ r ∈ extra, c ∈ r) ∨ s.contains c = true := by
    rw [hextra]
    constructor
    · rintro ⟨d, hd, hs⟩
      by_cases hne : c = d
      · exact .inr (hne ▸ hs)
      · exact .inl ⟨d, ⟨hd, c, hne, hd⟩, hs⟩
    · rintro (⟨d, hd, hs⟩ | hs)
      · exact ⟨d, hd.1, hs⟩
      · exact ⟨c, rfl, hs⟩
  rw [hclosed]
  dsimp only
  split
  · rename_i hnone
    simp [List.isEmpty_iff.mp hnone]
  · rw [CharSet.contains_ofIntervals, CharSet.contains_iff, CharSet.mem_iff]
    simp only [List.mem_append, or_and_right, exists_or]

end Tells

end CaseTable

/-! ### Closing sets -/

/-- A way to close sets under having the same canonical form. -/
structure ClosesUnder (canonical : CodeUnit → CodeUnit) (close : CharSet → CharSet) : Prop where
  contains_iff : ∀ s c,
    (close s).contains c = true ↔ ∃ m, s.contains m = true ∧ canonical m = canonical c
  extensive : ∀ s c, s.contains c = true → (close s).contains c = true
  idempotent : ∀ s, close (close s) = close s
  monotone : ∀ s t, (∀ c, s.contains c = true → t.contains c = true) →
    ∀ c, (close s).contains c = true → (close t).contains c = true
  union : ∀ s t, close (s.union t) = (close s).union (close t)
  complement : ∀ s c d, canonical c = canonical d →
    (close s).complement.contains c = (close s).complement.contains d

/-- Membership of the closure decides everything else about it. -/
theorem ClosesUnder.of_contains {canonical : CodeUnit → CodeUnit} {close : CharSet → CharSet}
    (h : ∀ s c,
      (close s).contains c = true ↔ ∃ d, canonical c = canonical d ∧ s.contains d = true) :
    ClosesUnder canonical close := by
  have hextensive (s : CharSet) (c : CodeUnit) (hc : s.contains c = true) :
      (close s).contains c = true := (h s c).mpr ⟨c, rfl, hc⟩
  have hfolded (s : CharSet) (c d : CodeUnit) (hcd : canonical c = canonical d) :
      (close s).contains c = (close s).contains d := by
    rw [Bool.eq_iff_iff, h, h, hcd]
  refine ⟨fun s c => ?_, hextensive, fun s => ?_, fun s t hst c => ?_, fun s t => ?_,
    fun s c d hcd => ?_⟩
  · rw [h s c]
    exact exists_congr fun d => by rw [and_comm, eq_comm (a := canonical c)]
  · refine CharSet.ext_contains fun c => Bool.eq_iff_iff.mpr ⟨fun hc => ?_, hextensive _ c⟩
    obtain ⟨d, hcd, hd⟩ := (h _ c).mp hc
    rw [hfolded s c d hcd, hd]
  · rw [h s c, h t c]
    rintro ⟨d, hcd, hd⟩
    exact ⟨d, hcd, hst d hd⟩
  · refine CharSet.ext_contains fun c => Bool.eq_iff_iff.mpr ?_
    rw [CharSet.contains_union, Bool.or_eq_true, h, h, h]
    simp only [CharSet.contains_union, Bool.or_eq_true, and_or_left, exists_or]
  · rw [CharSet.contains_complement, CharSet.contains_complement, hfolded s c d hcd]

/-- The table closes sets as the classes do, whatever the canonical forms are. -/
theorem CaseTable.fold_build (canonical : CodeUnit → CodeUnit) (s : CharSet) :
    (build canonical).fold s = s.close (caseClasses canonical) := by
  refine CharSet.ext_contains fun c => Bool.eq_iff_iff.mpr ?_
  rw [(tells_build canonical).contains_fold, CharSet.contains_close_caseClasses]

theorem CaseTable.fold_build_canonicalUnit (unicode : Bool) (s : CharSet) :
    (build (canonicalUnit unicode)).fold s = s.caseClosure unicode := by
  refine CharSet.ext_contains fun c => Bool.eq_iff_iff.mpr ?_
  rw [(tells_build _).contains_fold, CharSet.contains_caseClosure]

/-- Adding what the table of case equivalents has for the members of a set closes the set under case
equivalence, for any canonical forms. The closure in either mode is this for its own forms. -/
theorem CaseTable.closesUnder_build :
    (∀ canonical, ClosesUnder canonical (build canonical).fold) ∧
      (∀ canonical s, (build canonical).fold s = s.close (caseClasses canonical)) ∧
      (∀ unicode, ClosesUnder (canonicalUnit unicode) (CharSet.caseClosure unicode)) ∧
      ∀ unicode s, (build (canonicalUnit unicode)).fold s = s.caseClosure unicode :=
  ⟨fun canonical => .of_contains fun _ _ => (tells_build canonical).contains_fold,
    fold_build, fun _ => .of_contains fun _ _ => CharSet.contains_caseClosure,
    fold_build_canonicalUnit⟩

end UnitRegex
