import UnitRegex.Alphabet.CaseClasses
import UnitRegex.Proofs.Alphabet.Membership

/-!
Sets that are closed under case equivalence. The closure of a set holds exactly the units that are
equivalent to one of its members. The complement of a closed set is closed, and line terminators
and, outside unicode mode, word characters form closed sets.
-/

namespace UnitRegex

/-! ### Classes -/

section Classes

variable {canonical : CodeUnit → CodeUnit}

theorem mem_allUnits (c : CodeUnit) : c ∈ allUnits :=
  List.mem_map.mpr ⟨c.toNat, List.mem_range.mpr c.toNat_lt, UInt16.ofNat_toNat⟩

/-- A bucket receives the units with its canonical form, the last one first. -/
theorem getElem?_buckets (l : List CodeUnit) (buckets : Array (List CodeUnit)) (v : Nat) :
    (l.foldl (fun acc c => acc.modify (canonical c).toNat (c :: ·)) buckets)[v]? =
      (buckets[v]?).map fun bucket =>
        (l.filter fun c => (canonical c).toNat == v).reverse ++ bucket := by
  induction l generalizing buckets with
  | nil => simp
  | cons c rest ih =>
    rw [List.foldl_cons, ih, Array.getElem?_modify, List.filter_cons]
    by_cases h : (canonical c).toNat = v
    · simp [h, Function.comp_def]
    · simp [h]

/-- The units with one canonical form are a class, unless there is only one of them. -/
theorem mem_caseClasses {cls : List CodeUnit} :
    cls ∈ caseClasses canonical ↔
      1 < cls.length ∧ ∃ v : CodeUnit, cls = (allUnits.filter (canonical · == v)).reverse := by
  have hfilter (v : CodeUnit) :
      (allUnits.filter fun c => (canonical c).toNat == v.toNat) =
        allUnits.filter (canonical · == v) := by
    apply List.filter_congr
    intro c _
    rw [Bool.eq_iff_iff, beq_iff_eq, beq_iff_eq, UInt16.toNat_inj]
  rw [caseClasses, List.mem_filter, decide_eq_true_eq, and_comm, Array.mem_toList_iff,
    Array.mem_iff_getElem?]
  apply and_congr_right
  intro _
  constructor
  · rintro ⟨v, hv⟩
    rw [getElem?_buckets, Array.getElem?_replicate] at hv
    split at hv
    · rename_i hlt
      have hv' : (UInt16.ofNat v).toNat = v := by
        rw [UInt16.toNat_ofNat']
        omega
      refine ⟨UInt16.ofNat v, ?_⟩
      rw [← hfilter, hv']
      simpa using hv.symm
    · cases hv
  · rintro ⟨v, hv⟩
    have hlt : v.toNat < 65536 := v.toNat_lt
    refine ⟨v.toNat, ?_⟩
    rw [getElem?_buckets, Array.getElem?_replicate, if_pos hlt, hfilter, hv]
    simp

/-- Two units are in one class if they are different and have the same canonical form. -/
theorem exists_caseClass_iff {c d : CodeUnit} (hne : c ≠ d) :
    (∃ cls ∈ caseClasses canonical, c ∈ cls ∧ d ∈ cls) ↔ canonical c = canonical d := by
  constructor
  · rintro ⟨cls, hcls, hc, hd⟩
    obtain ⟨-, v, hv⟩ := mem_caseClasses.mp hcls
    simp only [hv, List.mem_reverse, List.mem_filter, beq_iff_eq] at hc hd
    exact hc.2.trans hd.2.symm
  · intro h
    have hc : c ∈ (allUnits.filter (canonical · == canonical d)).reverse := by
      simp [mem_allUnits, h]
    have hd : d ∈ (allUnits.filter (canonical · == canonical d)).reverse := by
      simp [mem_allUnits]
    refine ⟨_, mem_caseClasses.mpr ⟨?_, canonical d, rfl⟩, hc, hd⟩
    apply Nat.lt_of_not_le
    intro hle
    obtain ⟨x, hx⟩ := List.length_eq_one_iff.mp
      (Nat.le_antisymm hle (List.length_pos_of_mem hc))
    rw [hx, List.mem_singleton] at hc hd
    exact hne (hc.trans hd.symm)

end Classes

/-! ### Closed sets -/

namespace CharSet

variable {unicode : Bool} {s : CharSet}

theorem contains_close {classes : List (List CodeUnit)} {c : CodeUnit} :
    (s.close classes).contains c = true ↔
      s.contains c = true ∨ ∃ cls ∈ classes, c ∈ cls ∧ ∃ d ∈ cls, s.contains d = true := by
  have htouched : (∃ cls ∈ classes, c ∈ cls ∧ ∃ d ∈ cls, s.contains d = true) ↔
      c ∈ (classes.filter (·.any s.contains)).flatten := by
    simp only [List.mem_flatten, List.mem_filter, List.any_eq_true]
    constructor
    · rintro ⟨cls, hcls, hc, hd⟩
      exact ⟨cls, ⟨hcls, hd⟩, hc⟩
    · rintro ⟨cls, ⟨hcls, hd⟩, hc⟩
      exact ⟨cls, hcls, hc, hd⟩
  rw [htouched, close]
  split
  · rename_i hnone
    simp [hnone]
  · rw [contains_ofIntervals, contains_iff, mem_iff]
    simp only [List.mem_append, List.mem_map]
    constructor
    · rintro ⟨r, ⟨d, hd, rfl⟩ | hr, hc⟩
      · rw [Interval.mem_single.mp hc]
        exact .inr hd
      · exact .inl ⟨r, hr, hc⟩
    · rintro (⟨r, hr, hc⟩ | hc)
      · exact ⟨r, .inr hr, hc⟩
      · exact ⟨Interval.single c, .inl ⟨c, hc, rfl⟩, Interval.mem_single.mpr rfl⟩

/-- Closing a set under the classes of some canonical forms adds what has the form of a member. -/
theorem contains_close_caseClasses (canonical : CodeUnit → CodeUnit) {c : CodeUnit} :
    (s.close (caseClasses canonical)).contains c = true ↔
      ∃ d, canonical c = canonical d ∧ s.contains d = true := by
  rw [contains_close]
  constructor
  · rintro (hc | ⟨cls, hcls, hc, d, hd, hs⟩)
    · exact ⟨c, rfl, hc⟩
    · by_cases hne : c = d
      · exact ⟨c, rfl, hne ▸ hs⟩
      · exact ⟨d, (exists_caseClass_iff hne).mp ⟨cls, hcls, hc, hd⟩, hs⟩
  · rintro ⟨d, hcd, hs⟩
    by_cases hne : c = d
    · exact .inl (hne ▸ hs)
    · obtain ⟨cls, hcls, hc, hd⟩ := (exists_caseClass_iff hne).mpr hcd
      exact .inr ⟨cls, hcls, hc, d, hd, hs⟩

/-- The closure of a set holds the units that have the canonical form of a member. -/
theorem contains_caseClosure {c : CodeUnit} :
    (s.caseClosure unicode).contains c = true ↔
      ∃ d, canonicalUnit unicode c = canonicalUnit unicode d ∧ s.contains d = true := by
  cases unicode with
  | true => exact contains_close_caseClasses unicodeCanonical
  | false => exact contains_close_caseClasses legacyCanonical

/-- A set that cannot tell case-equivalent units apart. -/
def Folded (unicode : Bool) (s : CharSet) : Prop :=
  ∀ c d, canonicalUnit unicode c = canonicalUnit unicode d → s.contains c = s.contains d

theorem folded_caseClosure (s : CharSet) : (s.caseClosure unicode).Folded unicode := by
  intro c d h
  rw [Bool.eq_iff_iff, contains_caseClosure, contains_caseClosure, h]

theorem Folded.complement (h : s.Folded unicode) : s.complement.Folded unicode := by
  intro c d hcd
  rw [contains_complement, contains_complement, h c d hcd]

theorem folded_full : full.Folded unicode := by
  intro c d _
  rw [contains_full, contains_full]

end CharSet

/-! ### Line terminators and word characters -/

/-- A unit that a case mapping gives is the unit it started from, or one of those that the runs
lead to. -/
theorem mapCase_eq {c v : CodeUnit} {runs : List CaseRun} (h : mapCase c runs = v) :
    c = v ∨ ∃ run ∈ runs, v - run.image ≤ run.last - run.first := by
  induction runs with
  | nil => exact .inl h
  | cons run rest ih =>
    rw [mapCase] at h
    split at h
    · exact .inl h
    · rename_i hfirst
      split at h
      · rename_i hlast
        split at h
        · refine .inr ⟨run, by simp, ?_⟩
          have hle : run.first ≤ run.last :=
            UInt16.le_trans (UInt16.not_lt.mp hfirst) hlast
          have hback : run.image + (c - run.first) - run.image = c - run.first := by
            rw [UInt16.add_comm, UInt16.add_sub_cancel]
          rw [← h, hback, UInt16.le_iff_toNat_le,
            UInt16.toNat_sub_of_le _ _ (UInt16.not_lt.mp hfirst), UInt16.toNat_sub_of_le _ _ hle]
          exact Nat.sub_le_sub_right (UInt16.le_iff_toNat_le.mp hlast) _
        · exact .inl h
      · rcases ih h with hc | ⟨r, hr, hv⟩
        · exact .inl hc
        · exact .inr ⟨r, List.mem_cons_of_mem _ hr, hv⟩

/-- A unit that no case mapping leads to is the canonical form of itself only. -/
theorem eq_of_canonicalUnit_eq {unicode : Bool} {c v : CodeUnit}
    (hupper : ¬ ∃ run ∈ upperRuns, v - run.image ≤ run.last - run.first)
    (hlower : ¬ ∃ run ∈ lowerRuns, v - run.image ≤ run.last - run.first)
    (h : canonicalUnit unicode c = v) : c = v := by
  have hup : upperCase c = v → c = v := fun h => (mapCase_eq h).resolve_right hupper
  have hlow : lowerCase (upperCase c) = v → upperCase c = v := fun h =>
    (mapCase_eq h).resolve_right hlower
  cases unicode with
  | true =>
    simp only [canonicalUnit, if_true, unicodeCanonical] at h
    split at h
    · exact h
    · exact hup (hlow h)
  | false =>
    simp only [canonicalUnit, Bool.false_eq_true, if_false, legacyCanonical] at h
    split at h
    · exact h
    · exact hup h

/-- Line terminators have no case partners. -/
theorem canonicalUnit_eq_lineTerminator {unicode : Bool} {c v : CodeUnit}
    (hv : v.isLineTerminator = true) (h : canonicalUnit unicode c = canonicalUnit unicode v) :
    c = v := by
  have hcases : v = 0x0A ∨ v = 0x0D ∨ v = 0x2028 ∨ v = 0x2029 := by
    simpa [CodeUnit.isLineTerminator, or_assoc] using hv
  have hself : canonicalUnit unicode v = v := by
    rcases hcases with rfl | rfl | rfl | rfl <;> cases unicode <;> decide +kernel
  apply eq_of_canonicalUnit_eq _ _ (h.trans hself)
  · rcases hcases with rfl | rfl | rfl | rfl <;> decide +kernel
  · rcases hcases with rfl | rfl | rfl | rfl <;> decide +kernel

theorem CodeUnit.isLineTerminator_congr {unicode : Bool} {c d : CodeUnit}
    (h : canonicalUnit unicode c = canonicalUnit unicode d) :
    c.isLineTerminator = d.isLineTerminator := by
  rw [Bool.eq_iff_iff]
  constructor <;> intro hc
  · exact canonicalUnit_eq_lineTerminator hc h.symm ▸ hc
  · exact canonicalUnit_eq_lineTerminator hc h ▸ hc

theorem CharSet.folded_lineTerminators {unicode : Bool} : lineTerminators.Folded unicode := by
  intro c d h
  rw [contains_lineTerminators, contains_lineTerminators, CodeUnit.isLineTerminator_congr h]

/-- Outside unicode mode the canonical form of a unit is a word character if the unit is one. -/
theorem CodeUnit.isWord_legacyCanonical (c : CodeUnit) :
    (legacyCanonical c).isWord = c.isWord := by
  have hhigh (d : CodeUnit) (hd : 128 ≤ d) : d.isWord = false := by
    rw [UInt16.le_iff_toNat_le] at hd
    have hd : 128 ≤ d.toNat := hd
    simp only [CodeUnit.isWord, UInt16.le_iff_toNat_le, ← UInt16.toNat_inj, Bool.or_eq_false_iff,
      Bool.and_eq_false_iff, decide_eq_false_iff_not, beq_eq_false_iff_ne, ne_eq,
      UInt16.reduceToNat]
    omega
  by_cases hc : 128 ≤ c
  · rw [hhigh c hc, legacyCanonical]
    split
    · exact hhigh c hc
    · rename_i hup
      apply hhigh
      simpa [hc] using hup
  · have hascii : ∀ n < 128, (legacyCanonical (.ofNat n)).isWord = CodeUnit.isWord (.ofNat n) := by
      decide +kernel
    have hlt : c.toNat < 128 := by
      rw [UInt16.le_iff_toNat_le] at hc
      exact Nat.lt_of_not_le hc
    simpa only [UInt16.ofNat_toNat] using hascii c.toNat hlt

theorem CodeUnit.isWord_congr {c d : CodeUnit}
    (h : canonicalUnit false c = canonicalUnit false d) : c.isWord = d.isWord := by
  rw [← isWord_legacyCanonical c, ← isWord_legacyCanonical d]
  exact congrArg CodeUnit.isWord h

end UnitRegex
