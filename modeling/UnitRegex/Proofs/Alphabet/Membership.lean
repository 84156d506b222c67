import UnitRegex.Alphabet.Classes

/-!
Membership in sets of code units. The search through the intervals of a set finds exactly its
members, and the complement holds exactly the other units.
-/

namespace UnitRegex

namespace CharSet

theorem search_iff {l : List Interval} (hl : l.Pairwise Interval.Apart) {c : CodeUnit} :
    search c l = true ↔ ∃ r ∈ l, c ∈ r := by
  induction l with
  | nil => simp [search]
  | cons r rest ih =>
    obtain ⟨hr, hrest⟩ := List.pairwise_cons.mp hl
    have hbounds := r.toNat_lo_le_toNat_hi
    simp only [search, List.mem_cons, exists_eq_or_imp, Interval.mem_iff]
    by_cases hlo : c < r.lo
    · rw [if_pos hlo]
      rw [UInt16.lt_iff_toNat_lt] at hlo
      refine iff_of_false Bool.false_ne_true ?_
      rintro (h | ⟨s, hs, h⟩)
      · omega
      · have hapart := hr s hs
        unfold Interval.Apart at hapart
        omega
    · rw [if_neg hlo, Bool.or_eq_true, decide_eq_true_eq, UInt16.le_iff_toNat_le, ih hrest]
      rw [UInt16.lt_iff_toNat_lt] at hlo
      simp only [Interval.mem_iff]
      refine or_congr ?_ Iff.rfl
      omega

theorem contains_iff {s : CharSet} {c : CodeUnit} : s.contains c = true ↔ c ∈ s :=
  search_iff s.apart

theorem mem_gaps {next : Nat} {l : List Interval} (hl : l.Pairwise Interval.Apart)
    (hn : ∀ r ∈ l, next ≤ r.lo.toNat) {c : CodeUnit} :
    (∃ g ∈ gaps next l, c ∈ g) ↔ next ≤ c.toNat ∧ ∀ r ∈ l, c ∉ r := by
  have hc := c.toNat_lt
  induction l generalizing next with
  | nil =>
    unfold gaps
    by_cases hlt : next < 65536
    · obtain ⟨hlo, hhi⟩ := ofEnds_last_gap hlt
      rw [if_pos hlt]
      simp only [List.mem_singleton, exists_eq_left, Interval.mem_iff, hlo, hhi]
      simp
      omega
    · rw [if_neg hlt]
      simp
      omega
  | cons r rest ih =>
    obtain ⟨hr, hrest⟩ := List.pairwise_cons.mp hl
    have hbounds := r.toNat_lo_le_toNat_hi
    have hnext := hn r (by simp)
    have hbehind : ∀ s ∈ rest, r.hi.toNat + 1 ≤ s.lo.toNat := by
      intro s hs
      have hapart := hr s hs
      unfold Interval.Apart at hapart
      omega
    have hrest' : (∃ g ∈ gaps (r.hi.toNat + 1) rest, c ∈ g) ↔
        r.hi.toNat + 1 ≤ c.toNat ∧ ∀ s ∈ rest, c ∉ s := ih hrest hbehind
    -- A unit in front of the end of `r` lies in none of the intervals behind it.
    have hoff : c.toNat ≤ r.hi.toNat → ∀ s ∈ rest, c ∉ s := by
      intro hle s hs hmem
      have hs' := hbehind s hs
      rw [Interval.mem_iff] at hmem
      omega
    unfold gaps
    by_cases hgap : next < r.lo.toNat
    · obtain ⟨hlo, hhi⟩ := ofEnds_gap hgap
      rw [if_pos hgap]
      simp only [List.mem_cons, exists_eq_or_imp, forall_eq_or_imp, hrest']
      simp only [Interval.mem_iff, hlo, hhi]
      constructor
      · rintro (h | ⟨h, hs⟩)
        · exact ⟨h.1, by omega, fun s hs hmem => hoff (by omega) s hs (Interval.mem_iff.mpr hmem)⟩
        · exact ⟨by omega, by omega, hs⟩
      · rintro ⟨h, hnot, hs⟩
        by_cases hfront : c.toNat < r.lo.toNat
        · exact .inl (by omega)
        · exact .inr ⟨by omega, hs⟩
    · rw [if_neg hgap, hrest']
      simp only [List.mem_cons, forall_eq_or_imp, Interval.mem_iff]
      constructor
      · rintro ⟨h, hs⟩
        exact ⟨by omega, by omega, hs⟩
      · rintro ⟨h, hnot, hs⟩
        exact ⟨by omega, hs⟩

theorem mem_complement {s : CharSet} {c : CodeUnit} : c ∈ s.complement ↔ c ∉ s := by
  have h : (∃ g ∈ gaps 0 s.intervals, c ∈ g) ↔ 0 ≤ c.toNat ∧ ∀ r ∈ s.intervals, c ∉ r :=
    mem_gaps s.apart fun _ _ => Nat.zero_le _
  rw [mem_iff, mem_iff]
  show (∃ g ∈ gaps 0 s.intervals, c ∈ g) ↔ _
  rw [h]
  simp

theorem contains_complement (s : CharSet) (c : CodeUnit) :
    s.complement.contains c = !s.contains c := by
  have h := mem_complement (s := s) (c := c)
  rw [← contains_iff, ← contains_iff] at h
  cases hs : s.contains c <;> simp_all

theorem contains_ofIntervals {l : List Interval} {c : CodeUnit} :
    (ofIntervals l).contains c = true ↔ ∃ r ∈ l, c ∈ r := by
  rw [contains_iff, mem_ofIntervals]

theorem contains_full (c : CodeUnit) : full.contains c = true := by
  rw [contains_iff, mem_iff]
  refine ⟨Interval.ofEnds 0 65535, by simp [full, ofInterval], ?_⟩
  have hc := c.toNat_lt
  rw [Interval.mem_ofEnds]
  left
  constructor
  · exact Nat.zero_le _
  · show c.toNat ≤ 65535
    omega

theorem contains_lineTerminators (c : CodeUnit) :
    lineTerminators.contains c = c.isLineTerminator := by
  rw [Bool.eq_iff_iff, lineTerminators, contains_ofIntervals]
  simp only [List.mem_cons, List.not_mem_nil, or_false, exists_eq_or_imp, exists_eq_left,
    Interval.mem_single, Interval.mem_ofEnds, CodeUnit.isLineTerminator, Bool.or_eq_true,
    beq_iff_eq, ← UInt16.toNat_inj, UInt16.reduceToNat]
  omega

end CharSet

end UnitRegex
