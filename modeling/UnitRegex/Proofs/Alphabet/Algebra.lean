import Mathlib.Data.List.Forall2
import Mathlib.Tactic.Tauto
import UnitRegex.Alphabet.Bisect
import UnitRegex.Proofs.Alphabet.Extensional

/-!
Sets of code units as an algebra. Union, intersection, complement and difference hold the units that
their names tell, the search by halving finds exactly the members, and the size is their number.
-/

namespace UnitRegex

namespace CharSet

variable {s t : CharSet} {c : CodeUnit}

theorem contains_union (s t : CharSet) (c : CodeUnit) :
    (s.union t).contains c = (s.contains c || t.contains c) := by
  rw [Bool.eq_iff_iff, Bool.or_eq_true, union, contains_ofIntervals, contains_iff, contains_iff,
    mem_iff, mem_iff]
  simp only [List.mem_append, or_and_right, exists_or]

/-- The interval that ends first has nothing in common with what follows the other one. -/
theorem not_mem_of_hi_le {a b : Interval} {rest : List Interval}
    (hb : (b :: rest).Pairwise Interval.Apart) (hhi : a.hi.toNat ≤ b.hi.toNat) (hc : c ∈ a) :
    ¬∃ r ∈ rest, c ∈ r := by
  intro hrest
  have hbehind := lt_of_mem_rest hb hrest
  have hfront := (Interval.mem_iff.mp hc).2
  omega

theorem mem_meet?_append {a b : Interval} {rest : List Interval} :
    (∃ r ∈ (a.meet? b).toList ++ rest, c ∈ r) ↔ c ∈ a ∧ c ∈ b ∨ ∃ r ∈ rest, c ∈ r := by
  have hmeet : (∃ r ∈ (a.meet? b).toList, c ∈ r) ↔ c ∈ a ∧ c ∈ b := by
    cases h : a.meet? b with
    | none => exact iff_of_false (by simp) (Interval.not_mem_of_meet?_eq_none h c)
    | some r => simpa using Interval.mem_of_meet? h c
  simp only [List.mem_append, or_and_right, exists_or, hmeet]

/-- What is in the first part of one side and not in the last part of the other is in both first
parts if it is in both sides. -/
theorem and_or_and_iff {p q r t : Prop} (h : p → ¬t) :
    p ∧ q ∨ r ∧ (q ∨ t) ↔ (p ∨ r) ∧ (q ∨ t) := by
  tauto

theorem mem_overlaps {l m : List Interval} (hl : l.Pairwise Interval.Apart)
    (hm : m.Pairwise Interval.Apart) :
    (∃ r ∈ overlaps l m, c ∈ r) ↔ (∃ a ∈ l, c ∈ a) ∧ ∃ b ∈ m, c ∈ b := by
  fun_induction overlaps l m with
  | case1 => simp
  | case2 => simp
  | case3 a as b bs hlt ih =>
    have hnot : c ∈ a → ¬∃ r ∈ bs, c ∈ r :=
      not_mem_of_hi_le hm (Nat.le_of_lt (UInt16.lt_iff_toNat_lt.mp hlt))
    simp only [mem_meet?_append, ih (List.pairwise_cons.mp hl).2 hm, List.mem_cons,
      exists_eq_or_imp]
    exact and_or_and_iff hnot
  | case4 a as b bs hge ih =>
    have hnot : c ∈ b → ¬∃ r ∈ as, c ∈ r :=
      not_mem_of_hi_le hl (Nat.le_of_not_lt fun h => hge (UInt16.lt_iff_toNat_lt.mpr h))
    simp only [mem_meet?_append, ih hl (List.pairwise_cons.mp hm).2, List.mem_cons,
      exists_eq_or_imp]
    have hsplit := and_or_and_iff (q := c ∈ a) (r := ∃ b ∈ bs, c ∈ b) hnot
    rwa [and_comm (a := c ∈ b), and_comm (a := ∃ b ∈ bs, c ∈ b),
      and_comm (a := c ∈ b ∨ _)] at hsplit

theorem contains_inter (s t : CharSet) (c : CodeUnit) :
    (s.inter t).contains c = (s.contains c && t.contains c) := by
  rw [Bool.eq_iff_iff, Bool.and_eq_true, contains_iff, contains_iff, contains_iff]
  exact mem_overlaps s.apart t.apart

theorem contains_diff (s t : CharSet) (c : CodeUnit) :
    (s.diff t).contains c = (s.contains c && !t.contains c) := by
  rw [diff, contains_inter, contains_complement]

theorem eq_iff_contains : s = t ↔ ∀ c, s.contains c = t.contains c :=
  ⟨fun h c => by rw [h], ext_contains⟩

/-! ### Search by halving -/

theorem side_eq_lt {r : Interval} : r.side c = .lt ↔ r.hi.toNat < c.toNat := by
  rw [← UInt16.lt_iff_toNat_lt, Interval.side]
  split
  · simp [*]
  · split <;> simp [*]

theorem side_eq_gt {r : Interval} : r.side c = .gt ↔ c.toNat < r.lo.toNat := by
  have hr := r.toNat_lo_le_toNat_hi
  rw [Interval.side]
  split
  · rename_i hlt
    rw [UInt16.lt_iff_toNat_lt] at hlt
    exact iff_of_false nofun (by omega)
  · rw [← UInt16.lt_iff_toNat_lt]
    split <;> simp [*]

theorem side_eq_eq {r : Interval} : r.side c = .eq ↔ c ∈ r := by
  rw [Interval.mem_iff, ← Nat.not_lt, ← Nat.not_lt, ← side_eq_lt, ← side_eq_gt]
  cases r.side c <;> simp

theorem rises_side (s : CharSet) (c : CodeUnit) : Rises (Interval.side c) s.intervals.toArray := by
  refine s.apart.imp fun {a b} hab => ?_
  have ha := a.toNat_lo_le_toNat_hi
  have hb := b.toNat_lo_le_toNat_hi
  unfold Interval.Apart at hab
  rw [side_eq_lt, side_eq_lt, side_eq_gt, side_eq_gt]
  omega

/-- Halving finds an interval with the unit if the set has the unit. -/
theorem bisects_eq_contains (s : CharSet) (c : CodeUnit) : s.bisects c = s.contains c := by
  have hfound : s.bisects c = true ↔ ∃ i, bisect (Interval.side c) s.intervals.toArray = .ok i := by
    rw [bisects]
    cases bisect (Interval.side c) s.intervals.toArray <;> simp [Except.isOk, Except.toBool]
  rw [Bool.eq_iff_iff, hfound, exists_bisect_eq_ok_iff (s.rises_side c), contains_iff, mem_iff]
  simp only [List.mem_toArray, side_eq_eq]

/-! ### Size -/

theorem countP_or {α : Type} {p q : α → Bool} (hpq : ∀ a, p a = true → q a = false) (l : List α) :
    l.countP (fun a => p a || q a) = l.countP p + l.countP q := by
  induction l with
  | nil => rfl
  | cons a l ih =>
    simp only [List.countP_cons, ih]
    cases hp : p a with
    | true => simp [hpq a hp]; omega
    | false => simp; omega

/-- An interval has as many units as its size tells. -/
theorem countP_interval (r : Interval) :
    allUnits.countP (fun c => r.lo ≤ c && c ≤ r.hi) = r.size := by
  have hlo := r.toNat_lo_le_toNat_hi
  have hhi := r.hi.toNat_lt
  have hsplit : List.range 65536 = List.range' 0 r.lo.toNat ++
      (List.range' r.lo.toNat r.size ++ List.range' (r.hi.toNat + 1) (65535 - r.hi.toNat)) := by
    rw [List.range_eq_range', Interval.size]
    have hback : List.range' r.lo.toNat (r.hi.toNat - r.lo.toNat + 1) ++
        List.range' (r.hi.toNat + 1) (65535 - r.hi.toNat) =
          List.range' r.lo.toNat (65536 - r.lo.toNat) := by
      rw [show r.hi.toNat + 1 = r.lo.toNat + (r.hi.toNat - r.lo.toNat + 1) by omega,
        List.range'_append_1]
      congr 1
      omega
    rw [hback]
    have hfront := List.range'_append_1 (s := 0) (m := r.lo.toNat) (n := 65536 - r.lo.toNat)
    rw [Nat.zero_add, Nat.add_sub_cancel' (by omega)] at hfront
    exact hfront.symm
  have htest : ∀ n < 65536, (r.lo ≤ UInt16.ofNat n && UInt16.ofNat n ≤ r.hi) =
      decide (r.lo.toNat ≤ n ∧ n ≤ r.hi.toNat) := by
    intro n hn
    have hofNat : (UInt16.ofNat n).toNat = n := by
      rw [UInt16.toNat_ofNat']
      omega
    rw [Bool.eq_iff_iff]
    simp only [Bool.and_eq_true, decide_eq_true_eq, UInt16.le_iff_toNat_le, hofNat]
  rw [allUnits, List.countP_map,
    List.countP_congr (q := fun n => decide (r.lo.toNat ≤ n ∧ n ≤ r.hi.toNat))]
  · rw [hsplit, List.countP_append, List.countP_append, List.countP_eq_zero.mpr,
      List.countP_eq_length.mpr, List.countP_eq_zero.mpr]
    · simp
    · intro n hn
      rw [List.mem_range'_1] at hn
      simp
      omega
    · intro n hn
      rw [List.mem_range'_1] at hn
      unfold Interval.size at hn
      simp
      omega
    · intro n hn
      rw [List.mem_range'_1] at hn
      simp
      omega
  · intro n hn
    rw [Function.comp_apply, htest n (List.mem_range.mp hn)]

/-- The size of a set is the number of its members. -/
theorem size_eq_countP (s : CharSet) : s.size = allUnits.countP s.contains := by
  have hfold : ∀ (l : List Interval) (total : Nat), l.Pairwise Interval.Apart →
      l.foldl (fun total r => total + r.size) total = total + allUnits.countP (search · l) := by
    intro l
    induction l with
    | nil => simp [search]
    | cons r rest ih =>
      intro total hl
      have hrest := (List.pairwise_cons.mp hl).2
      have htest (c : CodeUnit) : (r.lo ≤ c && c ≤ r.hi) = true ↔ c ∈ r := by
        rw [Bool.and_eq_true, decide_eq_true_eq, decide_eq_true_eq]
        rfl
      have hsearch : (search · (r :: rest)) =
          fun c => (r.lo ≤ c && c ≤ r.hi) || search c rest := by
        funext c
        rw [Bool.eq_iff_iff, Bool.or_eq_true, search_iff hl, search_iff hrest, htest c]
        simp only [List.mem_cons, exists_eq_or_imp]
      rw [List.foldl_cons, ih _ hrest, hsearch, countP_or, countP_interval, Nat.add_assoc]
      intro c hc
      refine Bool.eq_false_iff.mpr fun hbehind => ?_
      exact not_mem_of_hi_le hl (Nat.le_refl _) ((htest c).mp hc) ((search_iff hrest).mp hbehind)
  rw [CharSet.size, hfold _ _ s.apart, Nat.zero_add]
  rfl

/-! ### What a set describes -/

/-- The members of a set are the units with a property, however they are asked for, and the
intervals of the set lie apart in order. -/
structure Describes (s : CharSet) (p : CodeUnit → Prop) : Prop where
  apart : s.intervals.Pairwise Interval.Apart
  covers : ∀ c, (∃ r ∈ s.intervals, c ∈ r) ↔ p c
  contains : ∀ c, s.contains c = true ↔ p c
  bisects : ∀ c, s.bisects c = true ↔ p c

theorem Describes.of_contains {p : CodeUnit → Prop} (h : ∀ c, s.contains c = true ↔ p c) :
    s.Describes p where
  apart := s.apart
  covers c := by rw [← h c, contains_iff, mem_iff]
  contains := h
  bisects c := by rw [bisects_eq_contains, h c]

/-- Rows of sets with the same members, place by place. -/
def SameMembers : List CharSet → List CharSet → Prop :=
  List.Forall₂ fun s t => ∀ c, s.contains c = t.contains c

theorem sameMembers_iff {l m : List CharSet} : SameMembers l m ↔ l = m := by
  have heq : (fun s t : CharSet => ∀ c, s.contains c = t.contains c) = Eq :=
    funext fun _ => funext fun _ => propext eq_iff_contains.symm
  rw [SameMembers, heq, List.forall₂_eq_eq_eq]

theorem forall₂_sameMembers_iff {l m : List (List CharSet)} :
    List.Forall₂ SameMembers l m ↔ l = m := by
  have heq : SameMembers = Eq := funext fun _ => funext fun _ => propext sameMembers_iff
  rw [heq, List.forall₂_eq_eq_eq]

end CharSet

end UnitRegex
