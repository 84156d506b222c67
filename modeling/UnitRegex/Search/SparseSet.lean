/-!
Sets of numbers below a capacity that are cleared in constant time. Clearing leaves the index of
every number as it was; an index only counts if the elements have that number at its place.
-/

namespace UnitRegex

structure SparseSet where
  /-- The elements in the order they were inserted. -/
  elements : Array Nat
  /-- For every number the place it last had among the elements. -/
  places : Array Nat

namespace SparseSet

def ofCapacity (n : Nat) : SparseSet := ⟨#[], Array.replicate n 0⟩

def capacity (s : SparseSet) : Nat := s.places.size

def size (s : SparseSet) : Nat := s.elements.size

def toList (s : SparseSet) : List Nat := s.elements.toList

def contains (s : SparseSet) (n : Nat) : Bool :=
  match s.places[n]? with
  | some place => s.elements[place]? = some n
  | none => false

/-- Inserts a number below the capacity, and tells whether it was new. -/
def insert (s : SparseSet) (n : Nat) : SparseSet × Bool :=
  if s.contains n || s.capacity ≤ n then (s, false)
  else (⟨s.elements.push n, s.places.setIfInBounds n s.elements.size⟩, true)

section

variable {s : SparseSet} {n : Nat}

theorem contains_insert_self (h : (s.insert n).2 = true) :
    s.contains n = false ∧ (s.insert n).1.contains n = true := by
  unfold insert at h ⊢
  split at h
  · cases h
  · rename_i hfresh
    obtain ⟨hcontains, hlt⟩ : s.contains n = false ∧ n < s.capacity := by simpa using hfresh
    refine ⟨hcontains, ?_⟩
    rw [if_neg hfresh, contains, Array.getElem?_setIfInBounds_self_of_lt hlt]
    simp

theorem contains_insert_of_contains {m : Nat} (h : s.contains m = true) :
    (s.insert n).1.contains m = true := by
  unfold insert
  split
  · exact h
  · rename_i hfresh
    have hne : n ≠ m := by
      rintro rfl
      simp [h] at hfresh
    unfold contains at h ⊢
    rw [Array.getElem?_setIfInBounds_ne hne]
    split at h
    · rename_i place hplace
      have hplace : s.elements[place]? = some m := by simpa using h
      obtain ⟨hlt, -⟩ := Array.getElem?_eq_some_iff.mp hplace
      simp [Array.getElem?_push, Nat.ne_of_lt hlt, hplace]
    · cases h

end

def clear (s : SparseSet) : SparseSet := { s with elements := #[] }

end SparseSet

end UnitRegex
