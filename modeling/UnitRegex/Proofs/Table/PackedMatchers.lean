import Mathlib.Data.Nat.Bitwise
import UnitRegex.Proofs.Alphabet.Extensional
import UnitRegex.Proofs.Table.Matchers
import UnitRegex.Table.PackedMatcher

/-!
Packing a set gives its matcher. The words of a block hold the low bytes of its units, collecting
intervals one by one cuts them into the runs of one block each, and so the packed matcher and the
matcher of a set accept the members of the set, at the same costs.
-/

namespace UnitRegex

/-! ### Bits in words -/

namespace ByteSet

variable {bits : ByteSet} {a b : UInt8}

theorem val_place (b : UInt8) : (place b).val = b.toNat / 64 := by
  show (b >>> 6).toNat = b.toNat / 64
  rw [UInt8.toNat_shiftRight, Nat.shiftRight_eq_div_pow]
  rfl

theorem toNat_mask (b : UInt8) : (mask b).toNat = 2 ^ (b.toNat % 64) := by
  have hlow : (b &&& 63).toNat = b.toNat % 64 := by
    rw [UInt8.toNat_and]
    exact Nat.and_two_pow_sub_one_eq_mod b.toNat 6
  have hlt : b.toNat % 64 < 64 := Nat.mod_lt _ (by decide)
  rw [mask, UInt64.toNat_shiftLeft, UInt8.toNat_toUInt64, hlow, Nat.mod_eq_of_lt hlt]
  show 1 <<< (b.toNat % 64) % 2 ^ 64 = _
  rw [Nat.one_shiftLeft, Nat.mod_eq_of_lt (Nat.pow_lt_pow_right (by decide) hlt)]

/-- Inserting a byte changes one word. -/
theorem word_insert : (bits.insert a).word b =
    if a.toNat / 64 = b.toNat / 64 then bits.word b ||| mask a else bits.word b := by
  rw [← val_place, ← val_place, word, insert, Fin.getElem_fin, Vector.getElem_set]
  split
  · rename_i hplace
    simp only [word, Fin.getElem_fin, hplace]
  · rfl

/-- A byte is in the set if its word has its bit. -/
theorem test_eq (bits : ByteSet) (b : UInt8) :
    bits.test b = (bits.word b).toNat.testBit (b.toNat % 64) := by
  rw [test, Bool.eq_iff_iff, bne_iff_ne, Ne, ← UInt64.toNat_inj, UInt64.toNat_and, toNat_mask,
    Nat.and_two_pow]
  cases (bits.word b).toNat.testBit (b.toNat % 64) <;> simp

theorem test_empty : empty.test b = false := by
  simp [test_eq, word, empty]

theorem test_insert : (bits.insert a).test b = (bits.test b || a == b) := by
  have hsame : a = b ↔ a.toNat / 64 = b.toNat / 64 ∧ a.toNat % 64 = b.toNat % 64 := by
    rw [← UInt8.toNat_inj]
    omega
  rw [test_eq, test_eq, word_insert]
  split
  · rename_i hword
    have hbit : (a == b) = decide (a.toNat % 64 = b.toNat % 64) := by
      rw [Bool.eq_iff_iff, beq_iff_eq, hsame, decide_eq_true_eq]
      exact and_iff_right hword
    rw [UInt64.toNat_or, toNat_mask, Nat.testBit_or, Nat.testBit_two_pow, hbit]
  · rename_i hword
    rw [beq_false_of_ne fun h => hword (hsame.mp h).1, Bool.or_false]

theorem test_foldl_insert (l : List CodeUnit) (bits : ByteSet) :
    (l.foldl (fun bits c => bits.insert c.low) bits).test b =
      (bits.test b || l.any (·.low == b)) := by
  induction l generalizing bits with
  | nil => simp
  | cons c l ih => rw [List.foldl_cons, ih, test_insert, List.any_cons, Bool.or_assoc]

/-- Each unit of the intervals leaves its low byte. -/
theorem test_ofRun (run : List Interval) :
    (ofRun run).test b = run.any fun r => r.units.any (·.low == b) := by
  have hfold (run : List Interval) (bits : ByteSet) :
      (run.foldl (fun bits r => r.units.foldl (fun bits c => bits.insert c.low) bits) bits).test b =
        (bits.test b || run.any fun r => r.units.any (·.low == b)) := by
    induction run generalizing bits with
    | nil => simp
    | cons r run ih => rw [List.foldl_cons, ih, test_foldl_insert, List.any_cons, Bool.or_assoc]
  rw [ofRun, hfold, test_empty, Bool.false_or]

/-- The same set as one word of 256 bits. -/
def toBits (bits : ByteSet) : BitVec 256 := bitmapOf fun b => bits.test (UInt8.ofNat b)

theorem getLsbD_toBits (bits : ByteSet) (b : UInt8) :
    bits.toBits.getLsbD b.toNat = bits.test b := by
  rw [toBits, getLsbD_bitmapOf b.toNat_lt, UInt8.ofNat_toNat]

end ByteSet

theorem Interval.mem_units {r : Interval} {c : CodeUnit} : c ∈ r.units ↔ c ∈ r := by
  have hlo := r.toNat_lo_le_toNat_hi
  have hhi := r.hi.toNat_lt
  rw [units, List.mem_map, mem_iff]
  constructor
  · rintro ⟨n, hn, rfl⟩
    rw [List.mem_range'_1, size] at hn
    have hofNat : (UInt16.ofNat n).toNat = n := by
      rw [UInt16.toNat_ofNat']
      omega
    omega
  · intro hc
    refine ⟨c.toNat, List.mem_range'_1.mpr ?_, UInt16.ofNat_toNat⟩
    rw [size]
    omega

/-! ### Runs -/

/-- The interval lies in the block of a high byte. -/
def Interval.InBlock (high : UInt8) (r : Interval) : Prop := r.lo.high = high ∧ r.hi.high = high

theorem Interval.sameBlock_of_inBlock {a b : Interval} {high : UInt8} (ha : a.InBlock high)
    (hb : b.InBlock high) : a.sameBlock b = true := by
  simp [sameBlock, ha.1, ha.2, hb.1, hb.2]

namespace PackedTest

/-- The same test with its bits in one word. -/
def unpack : PackedTest → UnitTest
  | single c => .single c
  | range r => .range r
  | block high bits => .block high bits.toBits
  | lowBlock bits => .lowBlock bits.toBits

theorem accepts_unpack (t : PackedTest) (c : CodeUnit) : t.unpack.accepts c = t.accepts c := by
  cases t with
  | single | range => rfl
  | block | lowBlock => simp only [unpack, UnitTest.accepts, accepts, ByteSet.getLsbD_toBits]

theorem cost_unpack (t : PackedTest) : t.unpack.cost = t.cost := by
  cases t <;> rfl

theorem unpack_ofInterval (r : Interval) : (ofInterval r).unpack = .ofInterval r := by
  rw [ofInterval, UnitTest.ofInterval]
  split <;> rfl

/-- A low byte stands for the one unit of the block that has it, whatever interval of the block that
unit comes from. -/
theorem toBits_ofRun {high : UInt8} {run : List Interval} (hrun : ∀ r ∈ run, r.InBlock high) :
    (ByteSet.ofRun run).toBits = UnitTest.blockBits high run := by
  apply BitVec.eq_of_getLsbD_eq
  intro b hb
  rw [ByteSet.toBits, UnitTest.blockBits, getLsbD_bitmapOf hb, getLsbD_bitmapOf hb,
    ByteSet.test_ofRun, Bool.eq_iff_iff, List.any_eq_true, List.any_eq_true]
  refine exists_congr fun r => and_congr_right fun hr => ?_
  have hofNat : (UInt8.ofNat b).toNat = b := by
    rw [UInt8.toNat_ofNat']
    exact Nat.mod_eq_of_lt hb
  have hhigh := high.toNat_lt
  have hlo := CodeUnit.toNat_high r.lo
  have hhi := CodeUnit.toNat_high r.hi
  rw [(hrun r hr).1] at hlo
  rw [(hrun r hr).2] at hhi
  simp only [List.any_eq_true, Interval.mem_units, Interval.mem_iff, beq_iff_eq,
    ← UInt8.toNat_inj, CodeUnit.toNat_low, hofNat, Bool.and_eq_true, decide_eq_true_eq]
  constructor
  · rintro ⟨c, hc, hlow⟩
    omega
  · intro hc
    have hwhole : (UInt16.ofNat (high.toNat * 256 + b)).toNat = high.toNat * 256 + b := by
      rw [UInt16.toNat_ofNat']
      omega
    refine ⟨.ofNat (high.toNat * 256 + b), ?_, ?_⟩ <;> rw [hwhole] <;> omega

/-- The intervals of one block are one run, and they become its test. -/
theorem map_unpack_ofRun? {high : UInt8} {run : List Interval}
    (hrun : ∀ r ∈ run, r.InBlock high) :
    (ofRun? run).toList.map unpack = (run.splitBy Interval.sameBlock).map UnitTest.ofRun := by
  match run with
  | [] => rfl
  | [r] =>
    show [(ofInterval r).unpack] = [UnitTest.ofInterval r]
    rw [unpack_ofInterval]
  | r :: next :: rest =>
    have hchain : (r :: next :: rest).IsChain fun a b => a.sameBlock b = true :=
      (List.pairwise_of_forall_mem_list fun a ha b hb =>
        Interval.sameBlock_of_inBlock (hrun a ha) (hrun b hb)).isChain
    rw [List.splitBy_of_isChain (List.cons_ne_nil _ _) hchain]
    have hbits := toBits_ofRun hrun
    rw [← (hrun r List.mem_cons_self).1] at hbits
    simp only [ofRun?, Option.toList_some, List.map_cons, List.map_nil, UnitTest.ofRun]
    split
    · rw [unpack, hbits]
    · rw [unpack, hbits]

end PackedTest

/-! ### One pass -/

namespace Packing

variable {p : Packing} {r : Interval} {high : UInt8}

theorem map_unpack_flush (hrun : ∀ r ∈ p.run, r.InBlock high) :
    p.flush.parts.map PackedTest.unpack =
      p.parts.map PackedTest.unpack ++
        (p.run.splitBy Interval.sameBlock).map UnitTest.ofRun := by
  rw [flush, List.map_append, PackedTest.map_unpack_ofRun? hrun]

theorem take_of_joins (hr : r.InBlock high) (hrun : p.run.head?.any (·.lo.high == high) = true) :
    p.take r = { p with run := p.run ++ [r] } := by
  have hconfined : (r.lo.high == r.hi.high) = true := beq_iff_eq.mpr (hr.1.trans hr.2.symm)
  rw [← hr.1] at hrun
  simp only [take, hconfined, hrun, Bool.and_self, if_true]

theorem take_of_begins (hr : r.InBlock high) (hrun : p.run.head?.any (·.lo.high == high) = false) :
    p.take r = { p.flush with run := [r] } := by
  have hconfined : (r.lo.high == r.hi.high) = true := beq_iff_eq.mpr (hr.1.trans hr.2.symm)
  rw [← hr.1] at hrun
  simp only [take, hconfined, hrun, Bool.and_false, Bool.false_eq_true, if_true, if_false]
  rfl

theorem take_of_crosses (hr : r.lo.high ≠ r.hi.high) :
    p.take r = ⟨p.flush.parts ++ [.ofInterval r], []⟩ := by
  have hcrosses : (r.lo.high == r.hi.high) = false := beq_false_of_ne hr
  simp only [take, hcrosses, Bool.false_and, Bool.false_eq_true, if_false]
  rfl

/-- A run ends in front of an interval if its first interval does not lie in the same block. -/
theorem splitBy_of_begins (hrun : ∀ r ∈ p.run, r.InBlock high)
    (hhead : p.run.head?.any (·.lo.high == r.lo.high) = false) (l : List Interval) :
    (p.run ++ r :: l).splitBy Interval.sameBlock =
      p.run.splitBy Interval.sameBlock ++ (r :: l).splitBy Interval.sameBlock := by
  refine List.splitBy_append_cons _ fun a ha => Bool.eq_false_iff.mpr fun hsame => ?_
  have hmem : a ∈ p.run := List.mem_of_getLast? ha
  obtain ⟨b, rest, hcons⟩ := List.exists_cons_of_ne_nil (List.ne_nil_of_mem hmem)
  rw [hcons, List.head?_cons, Option.any_some, (hrun b (hcons ▸ List.mem_cons_self)).1,
    ← (hrun a hmem).1, beq_eq_false_iff_ne] at hhead
  exact hhead (Interval.high_eq_of_sameBlock hsame).2.2

/-- An interval over several blocks is a run of its own. -/
theorem splitBy_of_crosses (hr : r.lo.high ≠ r.hi.high) (run l : List Interval) :
    (run ++ r :: l).splitBy Interval.sameBlock =
      run.splitBy Interval.sameBlock ++ [r] :: l.splitBy Interval.sameBlock := by
  have hcut (a : Interval) : a.sameBlock r = false ∧ r.sameBlock a = false := by
    simp [Interval.sameBlock, hr]
  rw [List.splitBy_append_cons _ fun a _ => (hcut a).1, ← List.singleton_append,
    List.splitBy_append fun a ha b _ => ?_]
  · rfl
  · rw [List.getLast?_singleton, Option.mem_some] at ha
    exact ha ▸ (hcut b).2

/-- Taking the intervals one by one cuts them where a matcher cuts them into runs. -/
theorem map_unpack_foldl_take (l : List Interval) (p : Packing)
    (hrun : ∃ high, ∀ r ∈ p.run, r.InBlock high) :
    (l.foldl take p).flush.parts.map PackedTest.unpack =
      p.parts.map PackedTest.unpack ++
        ((p.run ++ l).splitBy Interval.sameBlock).map UnitTest.ofRun := by
  induction l generalizing p with
  | nil =>
    obtain ⟨high, hrun⟩ := hrun
    rw [List.foldl_nil, List.append_nil, map_unpack_flush hrun]
  | cons r l ih =>
    obtain ⟨high, hrun⟩ := hrun
    rw [List.foldl_cons]
    by_cases hconfined : r.lo.high = r.hi.high
    · have hr : r.InBlock r.lo.high := ⟨rfl, hconfined.symm⟩
      cases hhead : p.run.head?.any (·.lo.high == r.lo.high) with
      | true =>
        -- The first interval of the run tells the block of all of them.
        obtain ⟨a, ha, hsame⟩ := (Option.any_eq_true _ _).mp hhead
        have hhigh : high = r.lo.high :=
          (hrun a (List.mem_of_head? ha)).1.symm.trans (beq_iff_eq.mp hsame)
        rw [take_of_joins hr hhead, ih]
        · rw [List.append_assoc, List.singleton_append]
        · refine ⟨high, fun b hb => ?_⟩
          rcases List.mem_append.mp hb with hb | hb
          · exact hrun b hb
          · rw [List.mem_singleton.mp hb, hhigh]
            exact hr
      | false =>
        rw [take_of_begins hr hhead, ih _ ⟨_, by simpa using hr⟩, map_unpack_flush hrun,
          splitBy_of_begins hrun hhead, List.map_append, List.append_assoc]
        rfl
    · rw [take_of_crosses hconfined, ih _ ⟨high, fun _ h => absurd h List.not_mem_nil⟩,
        List.map_append, map_unpack_flush hrun, splitBy_of_crosses hconfined]
      simp [UnitTest.ofRun, PackedTest.unpack_ofInterval]

end Packing

namespace PackedTests

def unpack : PackedTests → UnitTests
  | one t => .one t.unpack
  | anyOf ts => .anyOf (ts.map PackedTest.unpack)

theorem accepts_unpack (ts : PackedTests) (c : CodeUnit) :
    ts.unpack.accepts c = ts.accepts c := by
  cases ts with
  | one t => exact t.accepts_unpack c
  | anyOf ts =>
    rw [unpack, UnitTests.accepts, List.any_map, accepts]
    congr 1
    funext t
    exact t.accepts_unpack c

theorem cost_unpack (ts : PackedTests) : ts.unpack.cost = ts.cost := by
  cases ts with
  | one t => exact t.cost_unpack
  | anyOf ts => simp only [unpack, UnitTests.cost, cost, List.foldl_map, PackedTest.cost_unpack]

/-- One pass over intervals gives the tests of their runs. -/
theorem unpack_ofIntervals (l : List Interval) : (ofIntervals l).unpack = .ofIntervals l := by
  match l with
  | [] => rfl
  | [r] =>
    rw [ofIntervals, unpack, PackedTest.unpack_ofInterval]
    rfl
  | r :: next :: rest =>
    have hparts := Packing.map_unpack_foldl_take (r :: next :: rest) {}
      ⟨0, fun _ h => absurd h List.not_mem_nil⟩
    rw [List.map_nil, List.nil_append, List.nil_append] at hparts
    simp only [ofIntervals, UnitTests.ofIntervals, ← hparts]
    generalize ((r :: next :: rest).foldl Packing.take {}).flush.parts = parts
    match parts with
    | [] => rfl
    | [t] => rfl
    | t :: u :: rest => rfl

end PackedTests

namespace PackedMatcher

def unpack (m : PackedMatcher) : Matcher := ⟨m.inverted, m.tests.unpack⟩

theorem accepts_unpack (m : PackedMatcher) (c : CodeUnit) : m.unpack.accepts c = m.accepts c := by
  rw [Matcher.accepts, accepts, ← m.tests.accepts_unpack]
  rfl

theorem cost_unpack (m : PackedMatcher) : m.unpack.cost = m.cost := by
  rw [Matcher.cost, cost, ← m.tests.cost_unpack]
  rfl

theorem single?_unpack (m : PackedMatcher) : m.unpack.single? = m.single? := by
  obtain ⟨inverted, tests⟩ := m
  cases inverted with
  | true => rfl
  | false =>
    cases tests with
    | one t => cases t <;> rfl
    | anyOf ts => rfl

theorem unpack_ofSet (s : CharSet) : (ofSet s).unpack = .ofSet s := by
  have hpacked (inverted : Bool) (l : List Interval) :
      (⟨inverted, .ofIntervals l⟩ : PackedMatcher).unpack = ⟨inverted, .ofIntervals l⟩ := by
    rw [unpack, PackedTests.unpack_ofIntervals]
  rw [ofSet, Matcher.ofSet, ← hpacked, ← hpacked, cost_unpack, cost_unpack, apply_ite unpack]

end PackedMatcher

theorem UnitTests.one_le_cost (ts : UnitTests) : 1 ≤ ts.cost := by
  have hsum (ts : List UnitTest) (start : Nat) :
      start ≤ ts.foldl (fun total t => total + t.cost) start := by
    induction ts generalizing start with
    | nil => exact Nat.le_refl start
    | cons t ts ih => exact Nat.le_trans (Nat.le_add_right start t.cost) (ih _)
  cases ts with
  | one t => cases t <;> simp [cost, UnitTest.cost]
  | anyOf ts => exact hsum ts 1

namespace Matcher

/-- A matcher compares with one unit if its set has no other. An inverted matcher is not cheaper
then. -/
theorem single?_ofSet {s : CharSet} {c : CodeUnit} :
    (ofSet s).single? = some c ↔ ∀ d, s.contains d = true ↔ d = c := by
  constructor
  · intro h d
    rw [← accepts_ofSet, accepts_of_single? h, beq_iff_eq]
  · intro h
    obtain rfl : s = .single c := by
      refine CharSet.ext_contains fun d => ?_
      rw [Bool.eq_iff_iff, h d, CharSet.contains_iff, CharSet.mem_iff]
      simp [CharSet.single, CharSet.ofInterval, Interval.mem_single]
    have hdirect : UnitTests.ofIntervals (CharSet.single c).intervals = .one (.single c) := by
      simp [UnitTests.ofIntervals, CharSet.single, CharSet.ofInterval, List.splitBy,
        List.splitBy.loop, UnitTest.ofRun, UnitTest.ofInterval, Interval.isSingle, Interval.single]
    have hcost := (UnitTests.ofIntervals (CharSet.single c).complement.intervals).one_le_cost
    rw [ofSet, hdirect, if_neg]
    · rfl
    · simp only [cost, UnitTests.cost, UnitTest.cost, if_true, Bool.false_eq_true, if_false]
      omega

/-- The matcher of a set accepts its members, and it compares with one unit if that is the only
member. Packing the set in one pass gives this matcher, with its bits in words, and the packed
matcher does the same. -/
theorem ofSet_serves (s : CharSet) :
    (∀ c, (PackedMatcher.ofSet s).accepts c = s.contains c) ∧
      (∀ c, (PackedMatcher.ofSet s).single? = some c ↔ ∀ d, s.contains d = true ↔ d = c) ∧
      (PackedMatcher.ofSet s).unpack = ofSet s ∧
      (∀ c, (ofSet s).accepts c = s.contains c) ∧
      ∀ c, (ofSet s).single? = some c ↔ ∀ d, s.contains d = true ↔ d = c := by
  refine ⟨fun c => ?_, fun c => ?_, PackedMatcher.unpack_ofSet s, accepts_ofSet s,
    fun _ => single?_ofSet⟩
  · rw [← PackedMatcher.accepts_unpack, PackedMatcher.unpack_ofSet, accepts_ofSet]
  · rw [← PackedMatcher.single?_unpack, PackedMatcher.unpack_ofSet, single?_ofSet]

end Matcher

end UnitRegex
