import UnitRegex.Alphabet.Interval

/-!
Sets of code units, kept as sorted intervals with a missing unit between any two neighbours.
The invariant is part of the type, so a set has one representation and equality of
representations is equality of sets.
-/

namespace UnitRegex

/-- At least one unit lies strictly between the two intervals. -/
def Interval.Apart (a b : Interval) : Prop := a.hi.toNat + 1 < b.lo.toNat

structure CharSet where
  intervals : List Interval
  apart : intervals.Pairwise Interval.Apart
  deriving DecidableEq

namespace CharSet

instance : Membership CodeUnit CharSet := ⟨fun s c => ∃ r ∈ s.intervals, c ∈ r⟩

theorem mem_iff {s : CharSet} {c : CodeUnit} : c ∈ s ↔ ∃ r ∈ s.intervals, c ∈ r := Iff.rfl

/-- Searches sorted intervals from the left and stops at the first one that starts behind `c`. -/
def search (c : CodeUnit) : List Interval → Bool
  | [] => false
  | r :: rest => if c < r.lo then false else c ≤ r.hi || search c rest

def contains (s : CharSet) (c : CodeUnit) : Bool := search c s.intervals

/-- Joins neighbours, starting from `r`, as long as they leave no unit between them. -/
def coalesce (r : Interval) : List Interval → List Interval
  | [] => [r]
  | next :: rest =>
    match r.join? next with
    | some both => coalesce both rest
    | none => r :: coalesce next rest

theorem lo_le_of_mem_coalesce {r : Interval} {l : List Interval}
    (hl : (r :: l).Pairwise (fun a b => a.lo.toNat ≤ b.lo.toNat)) :
    ∀ x ∈ coalesce r l, r.lo.toNat ≤ x.lo.toNat := by
  induction l generalizing r with
  | nil => simp [coalesce]
  | cons next rest ih =>
    have hrn : r.lo.toNat ≤ next.lo.toNat := (List.pairwise_cons.mp hl).1 next (by simp)
    have hrest := (List.pairwise_cons.mp hl).2
    unfold coalesce
    cases hj : r.join? next with
    | none =>
      simp only [List.mem_cons, forall_eq_or_imp]
      exact ⟨Nat.le_refl _, fun x hx => Nat.le_trans hrn (ih hrest x hx)⟩
    | some both =>
      have hlo := Interval.lo_of_join? hj hrn
      simp only
      rw [← hlo]
      apply ih
      rw [List.pairwise_cons] at hl hrest ⊢
      exact ⟨fun x hx => hlo ▸ hl.1 x (by simp [hx]), hrest.2⟩

theorem pairwise_coalesce {r : Interval} {l : List Interval}
    (hl : (r :: l).Pairwise (fun a b => a.lo.toNat ≤ b.lo.toNat)) :
    (coalesce r l).Pairwise Interval.Apart := by
  induction l generalizing r with
  | nil => simp [coalesce]
  | cons next rest ih =>
    have hrn : r.lo.toNat ≤ next.lo.toNat := (List.pairwise_cons.mp hl).1 next (by simp)
    have hrest := (List.pairwise_cons.mp hl).2
    unfold coalesce
    cases hj : r.join? next with
    | none =>
      simp only [List.pairwise_cons]
      refine ⟨fun x hx => ?_, ih hrest⟩
      have := Interval.gap_of_join?_eq_none hj hrn
      have := lo_le_of_mem_coalesce hrest x hx
      unfold Interval.Apart
      omega
    | some both =>
      have hlo := Interval.lo_of_join? hj hrn
      apply ih
      rw [List.pairwise_cons] at hl hrest ⊢
      exact ⟨fun x hx => hlo ▸ hl.1 x (by simp [hx]), hrest.2⟩

theorem mem_coalesce {r : Interval} {l : List Interval} {c : CodeUnit} :
    (∃ x ∈ coalesce r l, c ∈ x) ↔ c ∈ r ∨ ∃ x ∈ l, c ∈ x := by
  induction l generalizing r with
  | nil => simp [coalesce]
  | cons next rest ih =>
    unfold coalesce
    cases hj : r.join? next with
    | none => simp [ih]
    | some both => simp [ih, Interval.mem_of_join? hj, or_assoc]

def normalize : List Interval → List Interval
  | [] => []
  | r :: rest => coalesce r rest

theorem pairwise_lo_mergeSort (l : List Interval) :
    (l.mergeSort Interval.before).Pairwise (fun a b => a.lo.toNat ≤ b.lo.toNat) :=
  (List.pairwise_mergeSort Interval.before_trans Interval.before_total l).imp
    Interval.lo_le_of_before

/-- The set of all units of a list of intervals, which may overlap and come in any order. -/
def ofIntervals (l : List Interval) : CharSet where
  intervals := normalize (l.mergeSort Interval.before)
  apart := by
    have h := pairwise_lo_mergeSort l
    revert h
    cases l.mergeSort Interval.before with
    | nil => intro; exact List.Pairwise.nil
    | cons r rest => exact pairwise_coalesce

theorem mem_ofIntervals {l : List Interval} {c : CodeUnit} :
    c ∈ ofIntervals l ↔ ∃ r ∈ l, c ∈ r := by
  have h : (∃ r ∈ l, c ∈ r) ↔ ∃ r ∈ l.mergeSort Interval.before, c ∈ r := by
    simp [List.mem_mergeSort]
  rw [h, mem_iff]
  show (∃ r ∈ normalize (l.mergeSort Interval.before), c ∈ r) ↔ _
  cases l.mergeSort Interval.before with
  | nil => simp [normalize]
  | cons r rest => simp [normalize, mem_coalesce]

def empty : CharSet := ⟨[], List.Pairwise.nil⟩

def ofInterval (r : Interval) : CharSet := ⟨[r], List.pairwise_singleton _ r⟩

def full : CharSet := ofInterval (Interval.ofEnds 0 65535)

def single (c : CodeUnit) : CharSet := ofInterval (Interval.single c)

def isEmpty (s : CharSet) : Bool := s.intervals.isEmpty

def isFull (s : CharSet) : Bool := s == full

/-- The only member of a set of one. -/
def single? (s : CharSet) : Option CodeUnit :=
  match s.intervals with
  | [r] => if r.isSingle then some r.lo else none
  | _ => none

/-- Number of members. -/
def size (s : CharSet) : Nat := s.intervals.foldl (fun total r => total + r.size) 0

def union (s t : CharSet) : CharSet := ofIntervals (s.intervals ++ t.intervals)

/-- Common parts of two sorted lists; the interval that ends first is dropped at each step. -/
def overlaps : List Interval → List Interval → List Interval
  | [], _ => []
  | _ :: _, [] => []
  | a :: as, b :: bs =>
    if a.hi < b.hi then (a.meet? b).toList ++ overlaps as (b :: bs)
    else (a.meet? b).toList ++ overlaps (a :: as) bs
termination_by l m => l.length + m.length

theorem le_of_mem_meet? {a b x : Interval} (hx : x ∈ (a.meet? b).toList) :
    a.lo.toNat ≤ x.lo.toNat ∧ b.lo.toNat ≤ x.lo.toNat ∧
      x.hi.toNat ≤ a.hi.toNat ∧ x.hi.toNat ≤ b.hi.toNat := by
  rw [Option.mem_toList] at hx
  have hlo := (Interval.mem_of_meet? hx x.lo).mp
    (Interval.mem_iff.mpr ⟨Nat.le_refl _, x.toNat_lo_le_toNat_hi⟩)
  have hhi := (Interval.mem_of_meet? hx x.hi).mp
    (Interval.mem_iff.mpr ⟨x.toNat_lo_le_toNat_hi, Nat.le_refl _⟩)
  rw [Interval.mem_iff, Interval.mem_iff] at hlo hhi
  omega

theorem exists_le_of_mem_overlaps (l m : List Interval) :
    ∀ x ∈ overlaps l m,
      (∃ a ∈ l, a.lo.toNat ≤ x.lo.toNat) ∧ (∃ b ∈ m, b.lo.toNat ≤ x.lo.toNat) := by
  fun_induction overlaps l m with
  | case1 => simp
  | case2 => simp
  | case3 a as b bs _ ih =>
    intro x hx
    rcases List.mem_append.mp hx with hx | hx
    · have := le_of_mem_meet? hx
      exact ⟨⟨a, by simp, by omega⟩, ⟨b, by simp, by omega⟩⟩
    · obtain ⟨⟨u, hu, h⟩, h₂⟩ := ih x hx
      exact ⟨⟨u, List.mem_cons_of_mem _ hu, h⟩, h₂⟩
  | case4 a as b bs _ ih =>
    intro x hx
    rcases List.mem_append.mp hx with hx | hx
    · have := le_of_mem_meet? hx
      exact ⟨⟨a, by simp, by omega⟩, ⟨b, by simp, by omega⟩⟩
    · obtain ⟨h₁, u, hu, h⟩ := ih x hx
      exact ⟨h₁, u, List.mem_cons_of_mem _ hu, h⟩

theorem pairwise_toList_append {o : Option Interval} {l : List Interval}
    (hl : l.Pairwise Interval.Apart) (h : ∀ r ∈ o.toList, ∀ x ∈ l, r.Apart x) :
    (o.toList ++ l).Pairwise Interval.Apart := by
  cases o with
  | none => simpa using hl
  | some r => simpa using ⟨fun x hx => h r (by simp) x hx, hl⟩

theorem pairwise_overlaps {l m : List Interval} (hl : l.Pairwise Interval.Apart)
    (hm : m.Pairwise Interval.Apart) : (overlaps l m).Pairwise Interval.Apart := by
  fun_induction overlaps l m with
  | case1 => exact List.Pairwise.nil
  | case2 => exact List.Pairwise.nil
  | case3 a as b bs _ ih =>
    have hl₂ := List.pairwise_cons.mp hl
    refine pairwise_toList_append (ih hl₂.2 hm) fun r hr x hx => ?_
    obtain ⟨⟨u, hu, h⟩, -⟩ := exists_le_of_mem_overlaps _ _ x hx
    have := hl₂.1 u hu
    have := le_of_mem_meet? hr
    unfold Interval.Apart at *
    omega
  | case4 a as b bs _ ih =>
    have hm₂ := List.pairwise_cons.mp hm
    refine pairwise_toList_append (ih hl hm₂.2) fun r hr x hx => ?_
    obtain ⟨-, u, hu, h⟩ := exists_le_of_mem_overlaps _ _ x hx
    have := hm₂.1 u hu
    have := le_of_mem_meet? hr
    unfold Interval.Apart at *
    omega

def inter (s t : CharSet) : CharSet :=
  ⟨overlaps s.intervals t.intervals, pairwise_overlaps s.apart t.apart⟩

/-- What sorted intervals leave out from `next` on; 65536 stands for the end of the alphabet. -/
def gaps (next : Nat) : List Interval → List Interval
  | [] => if next < 65536 then [Interval.ofEnds (UInt16.ofNat next) 65535] else []
  | r :: rest =>
    if next < r.lo.toNat then
      Interval.ofEnds (UInt16.ofNat next) (r.lo - 1) :: gaps (r.hi.toNat + 1) rest
    else gaps (r.hi.toNat + 1) rest

/-- The gap before `r` runs from `next` to the unit in front of `r`. -/
theorem ofEnds_gap {next : Nat} {r : Interval} (h : next < r.lo.toNat) :
    (Interval.ofEnds (UInt16.ofNat next) (r.lo - 1)).lo.toNat = next ∧
      (Interval.ofEnds (UInt16.ofNat next) (r.lo - 1)).hi.toNat = r.lo.toNat - 1 := by
  have hr := r.lo.toNat_lt
  have hn : (UInt16.ofNat next).toNat = next := by
    rw [UInt16.toNat_ofNat']
    omega
  have hp : (r.lo - 1).toNat = r.lo.toNat - 1 := by
    have h₁ : (1 : CodeUnit) ≤ r.lo := by
      rw [UInt16.le_iff_toNat_le]
      exact Nat.lt_of_le_of_lt (Nat.zero_le next) h
    rw [UInt16.toNat_sub_of_le _ _ h₁]
    rfl
  unfold Interval.ofEnds
  rw [dif_pos (by rw [UInt16.le_iff_toNat_le, hn, hp]; omega)]
  exact ⟨hn, hp⟩

theorem ofEnds_last_gap {next : Nat} (h : next < 65536) :
    (Interval.ofEnds (UInt16.ofNat next) 65535).lo.toNat = next ∧
      (Interval.ofEnds (UInt16.ofNat next) 65535).hi.toNat = 65535 := by
  have hn : (UInt16.ofNat next).toNat = next := by
    rw [UInt16.toNat_ofNat']
    omega
  unfold Interval.ofEnds
  rw [dif_pos (by rw [UInt16.le_iff_toNat_le, hn]; simp; omega)]
  exact ⟨hn, rfl⟩

theorem le_lo_of_mem_gaps (next : Nat) {l : List Interval} (hl : l.Pairwise Interval.Apart)
    (hn : ∀ r ∈ l, next ≤ r.lo.toNat) : ∀ g ∈ gaps next l, next ≤ g.lo.toNat := by
  induction l generalizing next with
  | nil =>
    unfold gaps
    split
    · rename_i h
      simp [(ofEnds_last_gap h).1]
    · simp
  | cons r rest ih =>
    have hl' := List.pairwise_cons.mp hl
    have hlo := hn r (by simp)
    have hr := r.toNat_lo_le_toNat_hi
    have ih' := ih (r.hi.toNat + 1) hl'.2 (fun x hx => by
      have := hl'.1 x hx
      unfold Interval.Apart at this
      omega)
    unfold gaps
    split
    · rename_i h
      intro g hg
      rcases List.mem_cons.mp hg with rfl | hg
      · exact Nat.le_of_eq (ofEnds_gap h).1.symm
      · have := ih' g hg
        omega
    · intro g hg
      have := ih' g hg
      omega

theorem pairwise_gaps {next : Nat} {l : List Interval} (hl : l.Pairwise Interval.Apart) :
    (gaps next l).Pairwise Interval.Apart := by
  induction l generalizing next with
  | nil => unfold gaps; split <;> simp
  | cons r rest ih =>
    have hl' := List.pairwise_cons.mp hl
    unfold gaps
    split
    · rename_i h
      refine List.pairwise_cons.mpr ⟨fun g hg => ?_, ih hl'.2⟩
      have := le_lo_of_mem_gaps (r.hi.toNat + 1) hl'.2 (fun x hx => by
        have := hl'.1 x hx
        unfold Interval.Apart at this
        omega) g hg
      have := (ofEnds_gap h).2
      have := r.toNat_lo_le_toNat_hi
      unfold Interval.Apart
      omega
    · exact ih hl'.2

def complement (s : CharSet) : CharSet := ⟨gaps 0 s.intervals, pairwise_gaps s.apart⟩

def diff (s t : CharSet) : CharSet := s.inter t.complement

end CharSet

end UnitRegex
