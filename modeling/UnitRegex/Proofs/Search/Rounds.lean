import Mathlib.Data.List.DropRight
import Mathlib.Data.List.Nodup
import UnitRegex.Search.SparseSet

/-!
Rounds of a sparse set. Clearing leaves the places of earlier rounds behind. They do no harm: from
any places whatsoever, a set holds what was inserted since it was cleared, in the order in which it
was inserted first.
-/

namespace UnitRegex
namespace SparseSet

/-- Every element is found at its place. -/
def Valid (s : SparseSet) : Prop := ∀ i n : Nat, s.elements[i]? = some n → s.places[n]? = some i

theorem valid_of_empty {s : SparseSet} (h : s.elements = #[]) : s.Valid := by
  intro i m hm
  simp [h] at hm

/-- Whatever places are left, a set without elements has nothing. -/
theorem contains_of_empty {s : SparseSet} (h : s.elements = #[]) (n : Nat) :
    s.contains n = false := by
  unfold contains
  split <;> simp [h]

theorem contains_iff {s : SparseSet} (h : s.Valid) {n : Nat} :
    s.contains n = true ↔ ∃ i : Nat, s.elements[i]? = some n := by
  unfold contains
  constructor
  · intro hc
    split at hc
    · exact ⟨_, by simpa using hc⟩
    · simp at hc
  · rintro ⟨i, hi⟩
    rw [h i n hi]
    simpa using hi

section

variable {s : SparseSet} {n : Nat} (hn : s.contains n = false) (hlt : n < s.capacity)
include hn hlt

theorem insert_of_fresh :
    s.insert n = (⟨s.elements.push n, s.places.setIfInBounds n s.elements.size⟩, true) := by
  have hle : ¬s.capacity ≤ n := by omega
  simp [insert, hn, hle]

theorem valid_insert (h : s.Valid) : (s.insert n).1.Valid := by
  rw [insert_of_fresh hn hlt]
  intro i m hm
  rw [Array.getElem?_push] at hm
  split at hm
  · rename_i hi
    obtain rfl := Option.some.inj hm
    rw [Array.getElem?_setIfInBounds_self, hi]
    exact if_pos hlt
  · have hne : n ≠ m := by
      rintro rfl
      have hc := (contains_iff h).mpr ⟨i, hm⟩
      rw [hn] at hc
      cases hc
    rw [Array.getElem?_setIfInBounds_ne hne]
    exact h i m hm

theorem contains_insert (h : s.Valid) {m : Nat} :
    (s.insert n).1.contains m = true ↔ m = n ∨ s.contains m = true := by
  rw [contains_iff (valid_insert hn hlt h), insert_of_fresh hn hlt, contains_iff h]
  simp only [Array.getElem?_push]
  constructor
  · rintro ⟨i, hi⟩
    split at hi
    · exact .inl (Option.some.inj hi).symm
    · exact .inr ⟨i, hi⟩
  · rintro (rfl | ⟨i, hi⟩)
    · exact ⟨s.elements.size, by simp⟩
    · obtain ⟨hi', -⟩ := Array.getElem?_eq_some_iff.mp hi
      exact ⟨i, by rw [if_neg (by omega), hi]⟩

end

/-- What is done to a set with a capacity. -/
inductive Change (capacity : Nat) where
  | insert (n : Fin capacity)
  | clear

variable {capacity : Nat}

def Change.inserted? : Change capacity → Option Nat
  | insert n => some n
  | clear => none

def Change.apply (s : SparseSet) : Change capacity → SparseSet
  | insert n => (s.insert n).1
  | clear => s.clear

def run (s : SparseSet) (changes : List (Change capacity)) : SparseSet :=
  changes.foldl Change.apply s

/-- What was inserted since the last time the set was cleared, in order. -/
def sinceClear (changes : List (Change capacity)) : List Nat :=
  (changes.rtakeWhile (·.inserted?.isSome)).filterMap Change.inserted?

theorem sinceClear_concat_clear (changes : List (Change capacity)) :
    sinceClear (changes ++ [.clear]) = [] := by
  rw [sinceClear, List.rtakeWhile_concat_neg _ _ _ (by simp [Change.inserted?]), List.filterMap_nil]

theorem sinceClear_concat_insert (changes : List (Change capacity)) (n : Fin capacity) :
    sinceClear (changes ++ [.insert n]) = sinceClear changes ++ [n.val] := by
  rw [sinceClear, List.rtakeWhile_concat_pos _ _ _ (by simp [Change.inserted?]),
    List.filterMap_append, sinceClear]
  rfl

variable {s : SparseSet} {inserted : List Nat} {n : Nat}

@[simp] theorem capacity_clear : s.clear.capacity = s.capacity := rfl

@[simp] theorem capacity_insert : (s.insert n).1.capacity = s.capacity := by
  unfold insert
  split <;> simp [capacity]

/-- No number stands at two places. -/
theorem Valid.nodup_toList (h : s.Valid) : s.toList.Nodup := by
  rw [toList, List.nodup_iff_getElem?_ne_getElem?]
  intro i j hij hj heq
  obtain ⟨m, hm⟩ : ∃ m, s.elements[j]? = some m := ⟨_, Array.getElem?_eq_getElem hj⟩
  rw [Array.getElem?_toList, Array.getElem?_toList, hm] at heq
  have hplace := Option.some.inj ((h i m heq).symm.trans (h j m hm))
  omega

/-- A set holds what was inserted into it. -/
structure Holds (s : SparseSet) (inserted : List Nat) : Prop where
  valid : s.Valid
  toList_eq : s.toList = inserted.eraseDups

namespace Holds

theorem of_empty (h : s.elements = #[]) : s.Holds [] where
  valid := valid_of_empty h
  toList_eq := by simp [toList, h]

theorem clear (s : SparseSet) : s.clear.Holds [] := of_empty rfl

theorem contains_iff (h : s.Holds inserted) : s.contains n = true ↔ n ∈ inserted := by
  rw [SparseSet.contains_iff h.valid, ← List.mem_eraseDups, ← h.toList_eq, toList,
    List.mem_iff_getElem?]
  simp only [Array.getElem?_toList]

theorem contains_eq_false_iff (h : s.Holds inserted) : s.contains n = false ↔ n ∉ inserted := by
  rw [← Bool.not_eq_true, h.contains_iff]

theorem insert (h : s.Holds inserted) (hn : n < s.capacity) :
    (s.insert n).1.Holds (inserted ++ [n]) := by
  by_cases hmem : n ∈ inserted
  · have hcontains := h.contains_iff.mpr hmem
    refine ⟨by simpa [SparseSet.insert, hcontains] using h.valid, ?_⟩
    simpa [SparseSet.insert, hcontains, List.eraseDups_append, List.removeAll, hmem]
      using h.toList_eq
  · have hfresh := h.contains_eq_false_iff.mpr hmem
    refine ⟨valid_insert hfresh hn h.valid, ?_⟩
    rw [insert_of_fresh hfresh hn, List.eraseDups_append, ← h.toList_eq]
    simp [toList, List.removeAll, hmem, List.eraseDups_cons]

theorem insert_snd_iff (h : s.Holds inserted) (hn : n < s.capacity) :
    (s.insert n).2 = true ↔ n ∉ inserted := by
  rw [← h.contains_eq_false_iff]
  cases hcontains : s.contains n with
  | true => simp [SparseSet.insert, hcontains]
  | false => simp [insert_of_fresh hcontains hn]

end Holds

theorem capacity_run (changes : List (Change capacity)) : (s.run changes).capacity = s.capacity := by
  induction changes generalizing s with
  | nil => rfl
  | cons change rest ih =>
    rw [run, List.foldl_cons, ← run, ih]
    cases change <;> simp [Change.apply]

/-- Whatever places an empty set has, it holds after some changes what was inserted since the last
time it was cleared. -/
theorem holds_run (hcapacity : s.capacity = capacity) (hs : s.elements = #[])
    (changes : List (Change capacity)) : (s.run changes).Holds (sinceClear changes) := by
  induction changes using List.reverseRecOn with
  | nil => exact .of_empty hs
  | append_singleton changes change ih =>
    rw [run, List.foldl_concat, ← run]
    cases change with
    | insert n =>
      rw [sinceClear_concat_insert]
      exact ih.insert (by rw [capacity_run, hcapacity]; exact n.isLt)
    | clear =>
      rw [sinceClear_concat_clear]
      exact .clear _

/-- A set forgets on clearing: what it has, what it takes as new and what it lists depends on what
was inserted since the last time it was cleared. -/
theorem run_ofCapacity (capacity : Nat) (changes : List (Change capacity)) :
    let s := (ofCapacity capacity).run changes
    (∀ n : Fin capacity, (s.contains n = true ↔ n.val ∈ sinceClear changes) ∧
      ((s.insert n).2 = true ↔ n.val ∉ sinceClear changes)) ∧
    s.toList = (sinceClear changes).eraseDups ∧ s.toList.Nodup := by
  have hcapacity : (ofCapacity capacity).capacity = capacity := Array.size_replicate
  have h := holds_run hcapacity rfl changes
  refine ⟨fun n => ⟨h.contains_iff, h.insert_snd_iff ?_⟩, h.toList_eq, h.valid.nodup_toList⟩
  rw [capacity_run, hcapacity]
  exact n.isLt

/-- The place that 3 had is the one that 2 has now, so 3 is not found. -/
example : (ofCapacity 4).run [.insert 3, .insert 1, .clear, .insert 2, .insert (1 : Fin 4)] =
    ⟨#[2, 1], #[0, 1, 0, 0]⟩ := rfl

end SparseSet
end UnitRegex
