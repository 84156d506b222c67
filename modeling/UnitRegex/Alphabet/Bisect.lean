import UnitRegex.Alphabet.CharSet

/-!
Binary search. What is looked for is given by a test that tells of each entry whether it comes
before, at or behind the place. In a row on which the test rises the search finds an entry at the
place, or where such an entry would have to be put.
-/

namespace UnitRegex

variable {α : Type}

/-- Halves a stretch of entries until one is left. No entry behind that one is in front of the
place. -/
def narrow (order : α → Ordering) (xs : Array α) (base size : Nat) (hpos : 0 < size)
    (hle : base + size ≤ xs.size) : Fin xs.size :=
  if hmany : 1 < size then
    if order xs[base + size / 2] = .gt then
      narrow order xs base (size - size / 2) (by omega) (by omega)
    else narrow order xs (base + size / 2) (size - size / 2) (by omega) (by omega)
  else ⟨base, by omega⟩
termination_by size

/-- The index of an entry at the place, or as an error the index at which it is missing. -/
def bisect (order : α → Ordering) (xs : Array α) : Except Nat Nat :=
  if hpos : 0 < xs.size then
    let i := narrow order xs 0 xs.size hpos (by omega)
    match order xs[i] with
    | .eq => .ok i
    | .lt => .error (i + 1)
    | .gt => .error i
  else .error 0

/-- How many entries at the front have a property that no entry behind them has. -/
def partitionPoint (p : α → Bool) (xs : Array α) : Nat :=
  match bisect (fun a => if p a then .lt else .gt) xs with
  | .ok i => i
  | .error i => i

/-- Where an interval lies, seen from a unit. -/
def Interval.side (c : CodeUnit) (r : Interval) : Ordering :=
  if r.hi < c then .lt else if c < r.lo then .gt else .eq

/-- Whether halving the intervals of a set leads to one that holds the unit. -/
def CharSet.bisects (s : CharSet) (c : CodeUnit) : Bool :=
  (bisect (Interval.side c) s.intervals.toArray).isOk

/-- Entries before the place come first, then those at it, then those behind it. -/
def Rises (order : α → Ordering) (xs : Array α) : Prop :=
  xs.toList.Pairwise fun a b =>
    (order b = .lt → order a = .lt) ∧ (order a = .gt → order b = .gt)

variable {order : α → Ordering} {xs : Array α}

theorem Rises.lt_of_le (h : Rises order xs) {i j : Nat} (hij : i ≤ j) (hj : j < xs.size)
    (hlt : order xs[j] = .lt) : order xs[i] = .lt := by
  rcases Nat.eq_or_lt_of_le hij with rfl | hij
  · exact hlt
  · exact (List.pairwise_iff_getElem.mp h i j (Nat.lt_trans hij hj) hj hij).1 hlt

theorem Rises.gt_of_le (h : Rises order xs) {i j : Nat} (hij : i ≤ j) (hj : j < xs.size)
    (hgt : order xs[i] = .gt) : order xs[j] = .gt := by
  rcases Nat.eq_or_lt_of_le hij with rfl | hij
  · exact hgt
  · exact (List.pairwise_iff_getElem.mp h i j (Nat.lt_trans hij hj) hj hij).2 hgt

/-- The entry that is left is not behind the place, unless it is the first one. All the others that
come after it are behind the place. -/
theorem narrow_spec (h : Rises order xs) (base size : Nat) (hpos : 0 < size)
    (hle : base + size ≤ xs.size) (i : Fin xs.size) : narrow order xs base size hpos hle = i →
      (order xs[i] = .gt → i.val = base) ∧
        ∀ j (hj : j < xs.size), i.val < j → j < base + size → order xs[j] = .gt := by
  fun_induction narrow order xs base size hpos hle with
  | case1 base size hpos hle hmany hgt ih =>
    intro hi
    obtain ⟨hfirst, hbehind⟩ := ih hi
    refine ⟨hfirst, fun j hj hlt hend => ?_⟩
    by_cases hfront : j < base + (size - size / 2)
    · exact hbehind j hj hlt hfront
    · exact h.gt_of_le (by omega) hj hgt
  | case2 base size hpos hle hmany hgt ih =>
    intro hi
    obtain ⟨hfirst, hbehind⟩ := ih hi
    refine ⟨fun hleft => ?_, fun j hj hlt hend => hbehind j hj hlt (by omega)⟩
    have hmid : i = ⟨base + size / 2, by omega⟩ := Fin.ext (hfirst hleft)
    rw [hmid] at hleft
    exact absurd hleft hgt
  | case3 base size hpos hle hmany =>
    rintro rfl
    exact ⟨fun _ => rfl, fun j _ hlt hend => absurd hlt (by dsimp only; omega)⟩

/-- An entry that is found is at the place. -/
theorem bisect_eq_ok {i : Nat} (h : bisect order xs = .ok i) :
    ∃ hi : i < xs.size, order xs[i] = .eq := by
  unfold bisect at h
  split at h
  · dsimp only at h
    split at h
    · rename_i heq
      obtain rfl := Except.ok.inj h
      exact ⟨Fin.isLt _, heq⟩
    · cases h
    · cases h
  · cases h

/-- Where no entry is found, those in front of the index are before the place and the others behind
it. -/
theorem bisect_eq_error (hrises : Rises order xs) {i : Nat} (h : bisect order xs = .error i) :
    (∀ j (hj : j < xs.size), j < i → order xs[j] = .lt) ∧
      ∀ j (hj : j < xs.size), i ≤ j → order xs[j] = .gt := by
  unfold bisect at h
  split at h
  · rename_i hpos
    obtain ⟨hfirst, hbehind⟩ := narrow_spec hrises 0 xs.size hpos (by omega) _ rfl
    dsimp only at h
    split at h
    · cases h
    · rename_i hlt
      obtain rfl := Except.error.inj h
      exact ⟨fun j hj hji => hrises.lt_of_le (Nat.le_of_lt_succ hji) (Fin.isLt _) hlt,
        fun j hj hij => hbehind j hj hij (by omega)⟩
    · rename_i hgt
      obtain rfl := Except.error.inj h
      have hzero := hfirst hgt
      refine ⟨fun j hj hji => by omega, fun j hj hij => ?_⟩
      rcases Nat.eq_or_lt_of_le hij with rfl | hij
      · exact hgt
      · exact hbehind j hj hij (by omega)
  · rename_i hempty
    exact ⟨fun j hj => absurd (Nat.zero_lt_of_lt hj) hempty,
      fun j hj => absurd (Nat.zero_lt_of_lt hj) hempty⟩

/-- An entry at the place is found if there is one. -/
theorem exists_bisect_eq_ok_iff (hrises : Rises order xs) :
    (∃ i, bisect order xs = .ok i) ↔ ∃ a ∈ xs, order a = .eq := by
  constructor
  · rintro ⟨i, h⟩
    obtain ⟨hi, heq⟩ := bisect_eq_ok h
    exact ⟨xs[i], Array.getElem_mem hi, heq⟩
  · rintro ⟨a, ha, heq⟩
    obtain ⟨j, hj, rfl⟩ := Array.mem_iff_getElem.mp ha
    cases h : bisect order xs with
    | ok i => exact ⟨i, rfl⟩
    | error i =>
      obtain ⟨hfront, hbehind⟩ := bisect_eq_error hrises h
      by_cases hji : j < i
      · rw [hfront j hj hji] at heq
        cases heq
      · rw [hbehind j hj (Nat.le_of_not_lt hji)] at heq
        cases heq

/-- The entries in front of the partition point are those that have the property. -/
theorem lt_partitionPoint_iff {p : α → Bool}
    (hxs : xs.toList.Pairwise fun a b => p b = true → p a = true) {j : Nat} (hj : j < xs.size) :
    j < partitionPoint p xs ↔ p xs[j] = true := by
  have hrises : Rises (fun a => if p a then .lt else .gt) xs := by
    refine hxs.imp fun {a b} hab => ⟨fun hb => ?_, fun ha => ?_⟩
    · simp only [ite_eq_left_iff, reduceCtorEq, imp_false, Bool.not_eq_true, Bool.not_eq_false]
        at hb ⊢
      exact hab hb
    · simp only [ite_eq_right_iff, reduceCtorEq, imp_false, Bool.not_eq_true] at ha ⊢
      exact Bool.eq_false_iff.mpr fun hb => Bool.eq_false_iff.mp ha (hab hb)
  unfold partitionPoint
  split
  · rename_i i h
    obtain ⟨hi, heq⟩ := bisect_eq_ok h
    split at heq <;> cases heq
  · rename_i i h
    obtain ⟨hfront, hbehind⟩ := bisect_eq_error hrises h
    constructor
    · intro hji
      simpa using hfront j hj hji
    · intro hp
      apply Nat.lt_of_not_le
      intro hij
      simpa [hp] using hbehind j hj hij

/-- The entries from the partition point on are those without the property. -/
theorem mem_drop_partitionPoint {p : α → Bool}
    (hxs : xs.toList.Pairwise fun a b => p b = true → p a = true) {a : α} :
    a ∈ xs.toList.drop (partitionPoint p xs) ↔ a ∈ xs ∧ p a = false := by
  have hpoint {j : Nat} (hj : j < xs.size) := lt_partitionPoint_iff hxs hj
  generalize partitionPoint p xs = n at hpoint
  rw [List.mem_drop_iff_getElem]
  constructor
  · rintro ⟨k, hk, rfl⟩
    refine ⟨Array.mem_toList_iff.mp (List.getElem_mem _), Bool.eq_false_iff.mpr fun hp => ?_⟩
    have hlt := (hpoint (j := n + k) (by simpa [Nat.add_comm] using hk)).mpr hp
    omega
  · rintro ⟨ha, hp⟩
    obtain ⟨j, hj, rfl⟩ := Array.mem_iff_getElem.mp ha
    have hle : n ≤ j := Nat.le_of_not_lt fun hlt => Bool.eq_false_iff.mp hp ((hpoint hj).mp hlt)
    refine ⟨j - n, by simpa [Nat.sub_add_cancel hle] using hj, ?_⟩
    simp [Nat.add_sub_cancel' hle]

end UnitRegex
