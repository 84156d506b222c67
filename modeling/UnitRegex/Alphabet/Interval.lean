/-!
Closed intervals of 16-bit code units. `meet?` is the common part of two intervals; `join?` is
their union, which exists exactly when they overlap or stand side by side.
-/

namespace UnitRegex

/-- A UTF-16 code unit. -/
abbrev CodeUnit := UInt16

structure Interval where
  lo : CodeUnit
  hi : CodeUnit
  lo_le_hi : lo ≤ hi
  deriving DecidableEq

namespace Interval

theorem toNat_lo_le_toNat_hi (r : Interval) : r.lo.toNat ≤ r.hi.toNat :=
  UInt16.le_iff_toNat_le.mp r.lo_le_hi

instance : Membership CodeUnit Interval := ⟨fun r c => r.lo ≤ c ∧ c ≤ r.hi⟩

theorem mem_iff {r : Interval} {c : CodeUnit} :
    c ∈ r ↔ r.lo.toNat ≤ c.toNat ∧ c.toNat ≤ r.hi.toNat := by
  simp only [Membership.mem, UInt16.le_iff_toNat_le]

theorem lo_mem (r : Interval) : r.lo ∈ r := ⟨UInt16.le_refl _, r.lo_le_hi⟩

instance (r : Interval) (c : CodeUnit) : Decidable (c ∈ r) :=
  inferInstanceAs (Decidable (r.lo ≤ c ∧ c ≤ r.hi))

/-- The interval between two ends, given in either order. -/
def ofEnds (a b : CodeUnit) : Interval :=
  if h : a ≤ b then ⟨a, b, h⟩ else ⟨b, a, UInt16.le_of_lt (UInt16.not_le.mp h)⟩

def single (c : CodeUnit) : Interval := ⟨c, c, UInt16.le_refl c⟩

/-- The units two intervals share. -/
def meet? (a b : Interval) : Option Interval :=
  let lo := if a.lo ≤ b.lo then b.lo else a.lo
  let hi := if a.hi ≤ b.hi then a.hi else b.hi
  if h : lo ≤ hi then some ⟨lo, hi, h⟩ else none

/-- The union of two intervals that leave no unit between them. -/
def join? (a b : Interval) : Option Interval :=
  if a.lo.toNat ≤ b.hi.toNat + 1 ∧ b.lo.toNat ≤ a.hi.toNat + 1 then
    some
      { lo := if a.lo ≤ b.lo then a.lo else b.lo
        hi := if a.hi ≤ b.hi then b.hi else a.hi
        lo_le_hi := by
          have ha := a.lo_le_hi
          have hb := b.lo_le_hi
          simp only [UInt16.le_iff_toNat_le] at *
          split <;> split <;> omega }
  else none

def size (r : Interval) : Nat := r.hi.toNat - r.lo.toNat + 1

def isSingle (r : Interval) : Bool := r.lo == r.hi

/-- Orders intervals by lower end, then by upper end. -/
def before (a b : Interval) : Bool := a.lo < b.lo || (a.lo == b.lo && a.hi ≤ b.hi)

theorem mem_ofEnds {a b c : CodeUnit} :
    c ∈ ofEnds a b ↔
      (a.toNat ≤ c.toNat ∧ c.toNat ≤ b.toNat) ∨ (b.toNat ≤ c.toNat ∧ c.toNat ≤ a.toNat) := by
  unfold ofEnds
  split <;> rename_i h <;> rw [UInt16.le_iff_toNat_le] at h <;> simp only [mem_iff] <;> omega

theorem mem_single {a c : CodeUnit} : c ∈ single a ↔ c = a := by
  rw [mem_iff, ← UInt16.toNat_inj]
  simp only [single]
  omega

theorem mem_of_meet? {a b r : Interval} (h : a.meet? b = some r) (c : CodeUnit) :
    c ∈ r ↔ c ∈ a ∧ c ∈ b := by
  simp only [meet?, Option.dite_none_right_eq_some, Option.some.injEq] at h
  obtain ⟨-, rfl⟩ := h
  simp only [mem_iff, apply_ite UInt16.toNat, UInt16.le_iff_toNat_le]
  split <;> split <;> omega

theorem not_mem_of_meet?_eq_none {a b : Interval} (h : a.meet? b = none) (c : CodeUnit) :
    ¬ (c ∈ a ∧ c ∈ b) := by
  simp only [meet?, dite_eq_right_iff, reduceCtorEq, imp_false, UInt16.le_iff_toNat_le,
    apply_ite UInt16.toNat] at h
  simp only [mem_iff]
  split at h <;> split at h <;> omega

theorem mem_of_join? {a b r : Interval} (h : a.join? b = some r) (c : CodeUnit) :
    c ∈ r ↔ c ∈ a ∨ c ∈ b := by
  simp only [join?, Option.ite_none_right_eq_some, Option.some.injEq] at h
  obtain ⟨h, rfl⟩ := h
  have ha := a.toNat_lo_le_toNat_hi
  have hb := b.toNat_lo_le_toNat_hi
  simp only [mem_iff, apply_ite UInt16.toNat, UInt16.le_iff_toNat_le]
  split <;> split <;> omega

theorem lo_of_join? {a b r : Interval} (h : a.join? b = some r) (hab : a.lo.toNat ≤ b.lo.toNat) :
    r.lo = a.lo := by
  simp only [join?, Option.ite_none_right_eq_some, Option.some.injEq] at h
  obtain ⟨-, rfl⟩ := h
  simp [UInt16.le_iff_toNat_le, hab]

/-- Intervals in order that cannot be joined leave a unit between them. -/
theorem gap_of_join?_eq_none {a b : Interval} (h : a.join? b = none)
    (hab : a.lo.toNat ≤ b.lo.toNat) : a.hi.toNat + 1 < b.lo.toNat := by
  simp only [join?, ite_eq_right_iff, reduceCtorEq, imp_false] at h
  have := b.toNat_lo_le_toNat_hi
  omega

theorem lo_le_of_before {a b : Interval} (h : a.before b = true) : a.lo.toNat ≤ b.lo.toNat := by
  simp only [before, Bool.or_eq_true, decide_eq_true_eq, Bool.and_eq_true, beq_iff_eq,
    UInt16.lt_iff_toNat_lt] at h
  rcases h with h | ⟨h, -⟩
  · omega
  · exact Nat.le_of_eq (congrArg UInt16.toNat h)

theorem before_total (a b : Interval) : a.before b || b.before a := by
  simp only [before, Bool.or_eq_true, decide_eq_true_eq, Bool.and_eq_true, beq_iff_eq,
    UInt16.lt_iff_toNat_lt, UInt16.le_iff_toNat_le, ← UInt16.toNat_inj]
  omega

theorem before_trans (a b c : Interval) (hab : a.before b = true) (hbc : b.before c = true) :
    a.before c = true := by
  simp only [before, Bool.or_eq_true, decide_eq_true_eq, Bool.and_eq_true, beq_iff_eq,
    UInt16.lt_iff_toNat_lt, UInt16.le_iff_toNat_le, ← UInt16.toNat_inj] at *
  omega

end Interval

end UnitRegex
