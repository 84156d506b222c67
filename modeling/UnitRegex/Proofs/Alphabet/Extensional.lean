import UnitRegex.Proofs.Alphabet.CaseClosure
import UnitRegex.Source.Flags

/-!
Sets of code units are determined by their members: sorted intervals with a unit between any two
neighbours can be told from outside. Sets that cannot tell case-equivalent units apart are their own
closures.
-/

namespace UnitRegex

namespace CharSet

variable {r q : Interval} {l m : List Interval} {s t : CharSet} {c : CodeUnit}

/-- What stands behind the first interval begins two units behind its end, or later. -/
theorem lt_of_mem_rest (h : (r :: l).Pairwise Interval.Apart) (hc : ∃ a ∈ l, c ∈ a) :
    r.hi.toNat + 1 < c.toNat := by
  obtain ⟨a, ha, hmem⟩ := hc
  have hapart : r.hi.toNat + 1 < a.lo.toNat := (List.pairwise_cons.mp h).1 a ha
  have hlo := (Interval.mem_iff.mp hmem).1
  omega

/-- The first interval of a row does not begin behind that of another row with more members. -/
theorem lo_le_of_subset (h : (r :: l).Pairwise Interval.Apart)
    (hsub : ∀ c, (∃ a ∈ q :: m, c ∈ a) → ∃ a ∈ r :: l, c ∈ a) : r.lo.toNat ≤ q.lo.toNat := by
  obtain ⟨a, ha, hmem⟩ := hsub q.lo ⟨q, List.mem_cons_self, q.lo_mem⟩
  have hlo := (Interval.mem_iff.mp hmem).1
  have hr := r.toNat_lo_le_toNat_hi
  rcases List.mem_cons.mp ha with rfl | ha
  · exact hlo
  · have hlt := lt_of_mem_rest h ⟨a, ha, hmem⟩
    omega

/-- It does not end in front of it either, if both begin at the same unit. -/
theorem hi_le_of_subset (h : (r :: l).Pairwise Interval.Apart) (hlo : r.lo = q.lo)
    (hsub : ∀ c, (∃ a ∈ q :: m, c ∈ a) → ∃ a ∈ r :: l, c ∈ a) : q.hi.toNat ≤ r.hi.toNat := by
  apply Nat.le_of_not_lt
  intro hlt
  have hr := r.toNat_lo_le_toNat_hi
  have hq := q.hi.toNat_lt
  -- The unit behind the shorter interval belongs to the longer one.
  have hnext : (UInt16.ofNat (r.hi.toNat + 1)).toNat = r.hi.toNat + 1 :=
    UInt16.toNat_ofNat_of_lt' (by simp [UInt16.size]; omega)
  obtain ⟨a, ha, hmem⟩ := hsub (.ofNat (r.hi.toNat + 1)) ⟨q, List.mem_cons_self, by
    rw [Interval.mem_iff, hnext, ← hlo]
    omega⟩
  rcases List.mem_cons.mp ha with rfl | ha
  · have hhi := (Interval.mem_iff.mp hmem).2
    omega
  · have hbehind := lt_of_mem_rest h ⟨a, ha, hmem⟩
    omega

theorem eq_of_mem_iff_mem (hl : l.Pairwise Interval.Apart) (hm : m.Pairwise Interval.Apart)
    (h : ∀ c, (∃ a ∈ l, c ∈ a) ↔ ∃ a ∈ m, c ∈ a) : l = m := by
  induction l generalizing m with
  | nil =>
    cases m with
    | nil => rfl
    | cons q m =>
      obtain ⟨a, ha, -⟩ := (h q.lo).mpr ⟨q, List.mem_cons_self, q.lo_mem⟩
      cases ha
  | cons r l ih =>
    cases m with
    | nil =>
      obtain ⟨a, ha, -⟩ := (h r.lo).mp ⟨r, List.mem_cons_self, r.lo_mem⟩
      cases ha
    | cons q m =>
      have hlo : r.lo = q.lo := UInt16.toNat_inj.mp (Nat.le_antisymm
        (lo_le_of_subset hl fun c => (h c).mpr) (lo_le_of_subset hm fun c => (h c).mp))
      have hhi : r.hi = q.hi := UInt16.toNat_inj.mp (Nat.le_antisymm
        (hi_le_of_subset hm hlo.symm fun c => (h c).mp) (hi_le_of_subset hl hlo fun c => (h c).mpr))
      obtain rfl : r = q := by
        cases r
        cases q
        cases hlo
        cases hhi
        rfl
      -- No member of what follows belongs to the first interval.
      have hrest {l m : List Interval} (hl : (r :: l).Pairwise Interval.Apart) {c : CodeUnit}
          (h : (∃ a ∈ r :: l, c ∈ a) → ∃ a ∈ r :: m, c ∈ a) :
          (∃ a ∈ l, c ∈ a) → ∃ a ∈ m, c ∈ a := by
        intro hc
        obtain ⟨b, hb, hmem⟩ := hc
        have hlt := lt_of_mem_rest hl ⟨b, hb, hmem⟩
        obtain ⟨a, ha, hmem⟩ := h ⟨b, List.mem_cons_of_mem r hb, hmem⟩
        rcases List.mem_cons.mp ha with rfl | ha
        · have hle := (Interval.mem_iff.mp hmem).2
          omega
        · exact ⟨a, ha, hmem⟩
      rw [ih (List.pairwise_cons.mp hl).2 (List.pairwise_cons.mp hm).2 fun c =>
        ⟨hrest hl (h c).mp, hrest hm (h c).mpr⟩]

theorem ext_mem (h : ∀ c, c ∈ s ↔ c ∈ t) : s = t := by
  cases s
  cases t
  congr 1
  exact eq_of_mem_iff_mem ‹_› ‹_› h

theorem ext_contains (h : ∀ c, s.contains c = t.contains c) : s = t :=
  ext_mem fun c => by rw [← contains_iff, ← contains_iff, h]

/-- Closing a set adds nothing if it cannot tell case-equivalent units apart. -/
theorem Folded.caseClosure_eq {unicode : Bool} (h : s.Folded unicode) :
    s.caseClosure unicode = s := by
  apply ext_contains
  intro c
  rw [Bool.eq_iff_iff, contains_caseClosure]
  constructor
  · rintro ⟨d, hcd, hd⟩
    rw [h c d hcd, hd]
  · intro hc
    exact ⟨c, rfl, hc⟩

theorem contains_word (c : CodeUnit) : word.contains c = c.isWord := by
  rw [Bool.eq_iff_iff, word, contains_ofIntervals]
  simp only [List.mem_cons, List.not_mem_nil, or_false, exists_eq_or_imp, exists_eq_left,
    Interval.mem_single, Interval.mem_ofEnds, CodeUnit.isWord, Bool.or_eq_true, Bool.and_eq_true,
    decide_eq_true_eq, beq_iff_eq, UInt16.le_iff_toNat_le, ← UInt16.toNat_inj, UInt16.reduceToNat]
  omega

/-- Outside unicode mode word characters are case-equivalent to word characters only. -/
theorem folded_word : word.Folded false := by
  intro c d h
  rw [contains_word, contains_word, CodeUnit.isWord_congr h]

end CharSet

namespace Flags

variable {f : Flags} {set : CharSet}

/-- The units that a set matches: when case is ignored, those that are equivalent to a member. -/
def closure (f : Flags) (set : CharSet) : CharSet :=
  if f.ignoreCase then set.caseClosure f.unicode else set

theorem contains_closure (hcase : f.ignoreCase = true) {c : CodeUnit} :
    (f.closure set).contains c = true ↔
      ∃ d, canonicalUnit f.unicode c = canonicalUnit f.unicode d ∧ set.contains d = true := by
  rw [closure, if_pos hcase]
  exact CharSet.contains_caseClosure

/-- Outside unicode mode sets like that of the word characters match their members only. -/
theorem closure_eq (hf : f.ignoreCase = true → f.unicode = false) (h : set.Folded false) :
    f.closure set = set := by
  rw [closure]
  split
  · rename_i hcase
    rw [hf hcase, h.caseClosure_eq]
  · rfl

end Flags

end UnitRegex
