import Mathlib.Data.List.SplitBy
import UnitRegex.Proofs.Alphabet.Membership
import UnitRegex.Table.Matcher

/-!
Matchers test membership. A run of intervals of one block becomes a set of low bytes, and the runs
of a set together test for its members.
-/

namespace UnitRegex

theorem getLsbD_bitmapOf {p : Nat → Bool} {b : Nat} (hb : b < 256) :
    (bitmapOf p).getLsbD b = p b := by
  have hfold : ∀ (l : List Nat) (bits : BitVec 256),
      (l.foldl (fun bits i => if p i then bits ||| BitVec.twoPow 256 i else bits) bits).getLsbD b =
        (bits.getLsbD b || (decide (b ∈ l) && p b)) := by
    intro l
    induction l with
    | nil => simp
    | cons i l ih =>
      intro bits
      rw [List.foldl_cons, ih]
      by_cases hi : b = i
      · subst hi
        by_cases hp : p b <;> simp [hp, hb]
      · have hne : i ≠ b := fun h => hi h.symm
        by_cases hp : p i <;> simp [hp, hi, hne]
  rw [bitmapOf, hfold]
  simp [hb]

theorem CodeUnit.toNat_high (c : CodeUnit) : c.high.toNat = c.toNat / 256 := by
  have hc := c.toNat_lt
  simp only [CodeUnit.high, UInt16.toNat_toUInt8, UInt16.toNat_shiftRight, UInt16.reduceToNat]
  have hpow : 2 ^ (8 % 16) = 256 := rfl
  rw [Nat.shiftRight_eq_div_pow, hpow]
  omega

theorem CodeUnit.toNat_low (c : CodeUnit) : c.low.toNat = c.toNat % 256 := by
  simp [CodeUnit.low]

theorem Interval.high_eq_of_sameBlock {a b : Interval} (h : a.sameBlock b = true) :
    a.lo.high = a.hi.high ∧ b.lo.high = b.hi.high ∧ a.lo.high = b.lo.high := by
  simpa [sameBlock, and_assoc] using h

namespace UnitTest

/-- A run lies in one block, unless it is a single interval. -/
theorem high_of_mem_run {r : Interval} {rest : List Interval}
    (hrun : (r :: rest).IsChain fun a b => a.sameBlock b = true) (hne : rest ≠ []) :
    ∀ s ∈ r :: rest, s.lo.high = r.lo.high ∧ s.hi.high = r.lo.high := by
  induction rest generalizing r with
  | nil => exact absurd rfl hne
  | cons next rest ih =>
    obtain ⟨hfirst, hrest⟩ := List.isChain_cons_cons.mp hrun
    obtain ⟨hr, hnext, hsame⟩ := Interval.high_eq_of_sameBlock hfirst
    intro s hs
    rcases List.mem_cons.mp hs with rfl | hs
    · exact ⟨rfl, hr.symm⟩
    · by_cases hlast : rest = []
      · subst hlast
        obtain rfl := List.mem_singleton.mp hs
        exact ⟨hsame.symm, hnext.symm.trans hsame.symm⟩
      · obtain ⟨hlo, hhi⟩ := ih hrest hlast s hs
        exact ⟨hlo.trans hsame.symm, hhi.trans hsame.symm⟩

theorem accepts_ofInterval (r : Interval) (c : CodeUnit) :
    (ofInterval r).accepts c = true ↔ c ∈ r := by
  unfold ofInterval
  split
  · rename_i hsingle
    have heq : r.lo = r.hi := by simpa [Interval.isSingle] using hsingle
    rw [accepts, beq_iff_eq, Interval.mem_iff, ← UInt16.toNat_inj, ← heq]
    omega
  · simp only [accepts, Bool.and_eq_true, decide_eq_true_eq, Interval.mem_iff,
      UInt16.le_iff_toNat_le]

theorem getLsbD_blockBits {high : UInt8} {run : List Interval} {c : CodeUnit}
    (hc : c.high = high) :
    (blockBits high run).getLsbD c.low.toNat = true ↔ ∃ r ∈ run, c ∈ r := by
  have hlow := CodeUnit.toNat_low c
  have hhigh := CodeUnit.toNat_high c
  rw [hc] at hhigh
  have hwhole : high.toNat * 256 + c.low.toNat = c.toNat := by omega
  rw [blockBits, getLsbD_bitmapOf (by omega), hwhole]
  simp [List.any_eq_true, Interval.mem_iff]

theorem accepts_ofRun {run : List Interval} (hne : run ≠ [])
    (hrun : run.IsChain fun a b => a.sameBlock b = true) (c : CodeUnit) :
    (ofRun run).accepts c = true ↔ ∃ r ∈ run, c ∈ r := by
  match run with
  | [] => exact absurd rfl hne
  | [r] => simp [ofRun, accepts_ofInterval]
  | r :: next :: rest =>
    have hblock := high_of_mem_run hrun (by simp)
    have hmem : (∃ s ∈ r :: next :: rest, c ∈ s) → c.high = r.lo.high := by
      rintro ⟨s, hs, hc⟩
      obtain ⟨hlo, hhi⟩ := hblock s hs
      have h₁ := CodeUnit.toNat_high s.lo
      have h₂ := CodeUnit.toNat_high s.hi
      have h₃ := CodeUnit.toNat_high c
      rw [Interval.mem_iff] at hc
      rw [← UInt8.toNat_inj, ← hlo]
      rw [hhi, ← hlo] at h₂
      omega
    have hbits : (c.high = r.lo.high ∧
        (blockBits r.lo.high (r :: next :: rest)).getLsbD c.low.toNat = true) ↔
        ∃ s ∈ r :: next :: rest, c ∈ s :=
      ⟨fun ⟨hc, hb⟩ => (getLsbD_blockBits hc).mp hb,
        fun h => ⟨hmem h, (getLsbD_blockBits (hmem h)).mpr h⟩⟩
    rw [← hbits]
    simp only [ofRun]
    split
    · rename_i hzero
      have hzero : r.lo.high = 0 := by simpa using hzero
      have hlt : c < 256 ↔ c.high = r.lo.high := by
        have h := CodeUnit.toNat_high c
        rw [hzero, UInt16.lt_iff_toNat_lt, ← UInt8.toNat_inj]
        simp only [UInt16.reduceToNat, UInt8.reduceToNat]
        omega
      simp only [accepts, Bool.and_eq_true, decide_eq_true_eq, hlt]
    · simp only [accepts, Bool.and_eq_true, beq_iff_eq]

end UnitTest

theorem UnitTests.accepts_ofIntervals (l : List Interval) (c : CodeUnit) :
    (ofIntervals l).accepts c = true ↔ ∃ r ∈ l, c ∈ r := by
  have hruns : (((l.splitBy Interval.sameBlock).map UnitTest.ofRun).any (·.accepts c)) = true ↔
      ∃ r ∈ l, c ∈ r := by
    rw [List.any_map, List.any_eq_true]
    have hrun : ∀ run ∈ l.splitBy Interval.sameBlock,
        ((UnitTest.ofRun run).accepts c = true ↔ ∃ r ∈ run, c ∈ r) := fun run hmem =>
      UnitTest.accepts_ofRun (List.ne_nil_of_mem_splitBy hmem) (List.isChain_of_mem_splitBy hmem) c
    constructor
    · rintro ⟨run, hmem, haccepts⟩
      obtain ⟨r, hr, hc⟩ := (hrun run hmem).mp haccepts
      refine ⟨r, ?_, hc⟩
      rw [← List.flatten_splitBy Interval.sameBlock l]
      exact List.mem_flatten_of_mem hmem hr
    · rintro ⟨r, hr, hc⟩
      rw [← List.flatten_splitBy Interval.sameBlock l] at hr
      obtain ⟨run, hmem, hr⟩ := List.mem_flatten.mp hr
      exact ⟨run, hmem, (hrun run hmem).mpr ⟨r, hr, hc⟩⟩
  rw [← hruns]
  unfold ofIntervals
  split
  · rename_i t ht
    rw [ht]
    simp [accepts]
  · simp [accepts]

namespace Matcher

/-- A matcher accepts the members of its set. -/
theorem accepts_ofSet (s : CharSet) (c : CodeUnit) : (ofSet s).accepts c = s.contains c := by
  have htests : ∀ t : CharSet, (UnitTests.ofIntervals t.intervals).accepts c = t.contains c := by
    intro t
    rw [Bool.eq_iff_iff, UnitTests.accepts_ofIntervals, CharSet.contains_iff]
    rfl
  unfold ofSet
  dsimp only
  split
  · rw [accepts, htests, CharSet.contains_complement]
    cases s.contains c <;> rfl
  · rw [accepts, htests]
    cases s.contains c <;> rfl

theorem accepts_of_single? {m : Matcher} {only : CodeUnit} (h : m.single? = some only)
    (c : CodeUnit) : m.accepts c = (c == only) := by
  obtain ⟨inverted, tests⟩ := m
  unfold single? at h
  split at h
  · rename_i hi ht
    obtain rfl := Option.some.inj h
    simp only at hi ht
    subst hi ht
    simp [accepts, UnitTests.accepts, UnitTest.accepts]
  · simp at h

end Matcher

end UnitRegex
