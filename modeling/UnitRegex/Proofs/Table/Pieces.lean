import UnitRegex.Proofs.Alphabet.Membership
import UnitRegex.Table.Subset

/-!
Pieces of the alphabet. The bounds of the pieces ascend from 0 to 65536, and no set tells two units
between neighbouring bounds apart.
-/

namespace UnitRegex

theorem eraseRepsBy_loop_append {α : Type} (r : α → α → Bool) (a : α) (l acc : List α) :
    List.eraseRepsBy.loop r a l acc = acc.reverse ++ List.eraseRepsBy.loop r a l [] := by
  induction l generalizing a acc with
  | nil => simp [List.eraseRepsBy.loop]
  | cons b l ih =>
    unfold List.eraseRepsBy.loop
    cases r a b with
    | true => exact ih a acc
    | false =>
      simp only
      rw [ih b (a :: acc), ih b [a]]
      simp

section

variable {α : Type} [BEq α]

theorem eraseReps_cons_cons (a b : α) (l : List α) :
    (a :: b :: l).eraseReps =
      if a == b then (a :: l).eraseReps else a :: (b :: l).eraseReps := by
  simp only [List.eraseReps, List.eraseRepsBy]
  rw [List.eraseRepsBy.loop.eq_def]
  cases hab : a == b with
  | true => simp only [hab, if_true]
  | false =>
    simp only [hab, Bool.false_eq_true, if_false]
    rw [eraseRepsBy_loop_append]
    rfl

variable [LawfulBEq α]

theorem mem_eraseReps {l : List α} {x : α} : x ∈ l.eraseReps ↔ x ∈ l := by
  induction l with
  | nil => rfl
  | cons a l ih =>
    cases l with
    | nil => rfl
    | cons b l =>
      rw [eraseReps_cons_cons]
      split
      · rename_i hab
        obtain rfl := eq_of_beq hab
        -- The first element is the next one, so the shorter list has the same members.
        rw [show x ∈ a :: a :: l ↔ x ∈ a :: l by simp]
        exact ih
      · rw [List.mem_cons, ih]
        exact List.mem_cons.symm

end

/-- What is sorted and has no repetitions ascends strictly. -/
theorem pairwise_eraseReps {α : Type} [BEq α] [LawfulBEq α] {r : α → α → Prop}
    (antisymm : ∀ a b, r a b → r b a → a = b) {l : List α} (h : l.Pairwise r) :
    l.eraseReps.Pairwise fun a b => r a b ∧ a ≠ b := by
  induction l with
  | nil => exact .nil
  | cons a l ih =>
    cases l with
    | nil => exact List.pairwise_singleton _ _
    | cons b l =>
      obtain ⟨ha, hl⟩ := List.pairwise_cons.mp h
      rw [eraseReps_cons_cons]
      split
      · rename_i hab
        obtain rfl := eq_of_beq hab
        exact ih hl
      · rename_i hab
        have hne : a ≠ b := by simpa using hab
        refine List.pairwise_cons.mpr ⟨fun x hx => ⟨ha x (mem_eraseReps.mp hx), ?_⟩, ih hl⟩
        rcases List.mem_cons.mp (mem_eraseReps.mp hx) with rfl | hx
        · exact hne
        · rintro rfl
          exact hne (antisymm _ _ (ha b (by simp)) ((List.pairwise_cons.mp hl).1 _ hx))

theorem mem_pieceBounds {sets : List CharSet} {n : Nat} :
    n ∈ pieceBounds sets ↔ n = 0 ∨ n = 65536 ∨
      ∃ s ∈ sets, ∃ r ∈ s.intervals, n = r.lo.toNat ∨ n = r.hi.toNat + 1 := by
  simp only [pieceBounds, mem_eraseReps, List.mem_mergeSort, List.mem_cons, List.mem_flatMap,
    List.not_mem_nil, or_false]

theorem pairwise_pieceBounds (sets : List CharSet) : (pieceBounds sets).Pairwise (· < ·) := by
  have hsorted := List.pairwise_mergeSort
    (fun a b c : Nat => fun (hab : decide (a ≤ b)) (hbc : decide (b ≤ c)) => by simp at *; omega)
    (fun a b => by simp; omega)
    (0 :: 65536 :: sets.flatMap fun s => s.intervals.flatMap fun r => [r.lo.toNat, r.hi.toNat + 1])
  have hle : ∀ a b : Nat, decide (a ≤ b) = true → decide (b ≤ a) = true → a = b := by
    intro a b
    simp only [decide_eq_true_eq]
    exact Nat.le_antisymm
  exact (pairwise_eraseReps hle hsorted).imp fun ⟨h, hne⟩ =>
    Nat.lt_of_le_of_ne (of_decide_eq_true h) hne

theorem le_of_mem_pieceBounds {sets : List CharSet} {n : Nat} (h : n ∈ pieceBounds sets) :
    n ≤ 65536 := by
  rcases mem_pieceBounds.mp h with rfl | rfl | ⟨s, -, r, -, rfl | rfl⟩
  · exact Nat.zero_le _
  · exact Nat.le_refl _
  · have := r.lo.toNat_lt
    omega
  · have := r.hi.toNat_lt
    omega

/-- No bound lies between two units. -/
def Together (sets : List CharSet) (c c' : CodeUnit) : Prop :=
  ∀ n ∈ pieceBounds sets, n ≤ c.toNat ↔ n ≤ c'.toNat

theorem Together.contains_eq {sets : List CharSet} {c c' : CodeUnit} (h : Together sets c c')
    {s : CharSet} (hs : s ∈ sets) : s.contains c = s.contains c' := by
  rw [Bool.eq_iff_iff, CharSet.contains_iff, CharSet.contains_iff]
  have hinterval : ∀ r ∈ s.intervals, c ∈ r ↔ c' ∈ r := by
    intro r hr
    have hlo := h r.lo.toNat (mem_pieceBounds.mpr (.inr (.inr ⟨s, hs, r, hr, .inl rfl⟩)))
    have hhi := h (r.hi.toNat + 1) (mem_pieceBounds.mpr (.inr (.inr ⟨s, hs, r, hr, .inr rfl⟩)))
    rw [Interval.mem_iff, Interval.mem_iff]
    omega
  constructor
  · rintro ⟨r, hr, hc⟩
    exact ⟨r, hr, (hinterval r hr).mp hc⟩
  · rintro ⟨r, hr, hc⟩
    exact ⟨r, hr, (hinterval r hr).mpr hc⟩

/-- Two units between neighbouring bounds are together. -/
theorem together_of_bounds {sets : List CharSet} {front back : List Nat} {lo hi : Nat}
    (h : pieceBounds sets = front ++ lo :: hi :: back) {c c' : CodeUnit}
    (hc : lo ≤ c.toNat ∧ c.toNat < hi) (hc' : lo ≤ c'.toNat ∧ c'.toNat < hi) :
    Together sets c c' := by
  intro n hn
  have hsorted := pairwise_pieceBounds sets
  rw [h] at hn hsorted
  obtain ⟨-, hback, hfront⟩ := List.pairwise_append.mp hsorted
  obtain ⟨hlo, hback⟩ := List.pairwise_cons.mp hback
  obtain ⟨hhi, -⟩ := List.pairwise_cons.mp hback
  rcases List.mem_append.mp hn with hn | hn
  · have := hfront n hn lo (by simp)
    omega
  · rcases List.mem_cons.mp hn with rfl | hn
    · omega
    · rcases List.mem_cons.mp hn with rfl | hn
      · omega
      · have := hhi n hn
        omega

/-- Neighbouring bounds ascend. -/
theorem lt_of_bounds {sets : List CharSet} {front back : List Nat} {lo hi : Nat}
    (h : pieceBounds sets = front ++ lo :: hi :: back) : lo < hi ∧ hi ≤ 65536 := by
  have hsorted := pairwise_pieceBounds sets
  rw [h] at hsorted
  obtain ⟨-, hback, -⟩ := List.pairwise_append.mp hsorted
  exact ⟨(List.pairwise_cons.mp hback).1 hi (by simp), le_of_mem_pieceBounds (by rw [h]; simp)⟩

theorem last_of_bounds {sets : List CharSet} {front : List Nat} {last : Nat}
    (h : pieceBounds sets = front ++ [last]) : 65536 ≤ last := by
  have hsorted := pairwise_pieceBounds sets
  have hgreatest : 65536 ∈ pieceBounds sets := mem_pieceBounds.mpr (.inr (.inl rfl))
  rw [h] at hsorted hgreatest
  rcases List.mem_append.mp hgreatest with hfront | hlast
  · exact Nat.le_of_lt ((List.pairwise_append.mp hsorted).2.2 _ hfront last (by simp))
  · exact Nat.le_of_eq (List.mem_singleton.mp hlast)

theorem first_of_bounds {sets : List CharSet} {back : List Nat} {first : Nat}
    (h : pieceBounds sets = first :: back) : first = 0 := by
  have hsorted := pairwise_pieceBounds sets
  have hleast : 0 ∈ pieceBounds sets := mem_pieceBounds.mpr (.inl rfl)
  rw [h] at hsorted hleast
  rcases List.mem_cons.mp hleast with hfirst | hback
  · exact hfirst.symm
  · exact absurd ((List.pairwise_cons.mp hsorted).1 0 hback) (Nat.not_lt_zero _)

/-- The piece of the alphabet from one bound up to the next. -/
theorem mem_piece {lo hi : Nat} (hlt : lo < hi) (hmax : hi ≤ 65536) {c : CodeUnit} :
    c ∈ Interval.ofEnds (UInt16.ofNat lo) (UInt16.ofNat (hi - 1)) ↔
      lo ≤ c.toNat ∧ c.toNat < hi := by
  have hlo : (UInt16.ofNat lo).toNat = lo :=
    UInt16.toNat_ofNat_of_lt' (show lo < 65536 by omega)
  have hhi : (UInt16.ofNat (hi - 1)).toNat = hi - 1 :=
    UInt16.toNat_ofNat_of_lt' (show hi - 1 < 65536 by omega)
  rw [Interval.mem_ofEnds, hlo, hhi]
  omega

end UnitRegex
