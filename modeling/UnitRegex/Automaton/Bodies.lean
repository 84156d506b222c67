import UnitRegex.Alphabet.CharSet
import Std.Data.TreeMap.Lemmas

/-!
The bodies of the assertions that look around, numbered in the order in which they come. Equal bodies
have one number.
-/

namespace UnitRegex

namespace CharSet

/-- The ends of the intervals, which tell sets apart. -/
def ends (s : CharSet) : List CodeUnit := s.intervals.flatMap fun r => [r.lo, r.hi]

theorem ends_inj {s t : CharSet} (h : s.ends = t.ends) : s = t := by
  have hintervals : s.intervals = t.intervals := by
    unfold ends at h
    generalize s.intervals = l at h
    generalize t.intervals = m at h
    induction l generalizing m with
    | nil => cases m <;> simp_all
    | cons a l ih =>
      cases m with
      | nil => simp at h
      | cons b m =>
        obtain ⟨alo, ahi, _⟩ := a
        obtain ⟨blo, bhi, _⟩ := b
        simp only [List.flatMap_cons, List.cons_append, List.nil_append, List.cons.injEq] at h
        obtain ⟨rfl, rfl, hrest⟩ := h
        rw [ih m hrest]
  obtain ⟨l, hl⟩ := s
  obtain ⟨m, hm⟩ := t
  obtain rfl : l = m := hintervals
  rfl

instance : Ord CharSet := ⟨fun s t => compare s.ends t.ends⟩

instance : Std.TransOrd CharSet where
  eq_swap {s t} := (Std.OrientedOrd.eq_swap : compare s.ends t.ends = _)
  isLE_trans {s _ u} h h' := (Std.TransOrd.isLE_trans h h' : (compare s.ends u.ends).isLE)

instance : Std.LawfulEqOrd CharSet where
  compare_self {s} := (Std.ReflOrd.compare_self : compare s.ends s.ends = .eq)
  eq_of_compare h := ends_inj (Std.LawfulEqOrd.eq_of_compare h)

end CharSet

-- The orders of the bodies of look-aheads are inferred once, not at each use.
instance : Std.TransOrd (List (List CharSet)) := inferInstance

instance : Std.LawfulEqOrd (List (List CharSet)) := inferInstance

/-- What has been numbered, with the number of each. -/
structure Bodies (α : Type) [Ord α] where
  items : Array α
  numbers : Std.TreeMap α Nat
  valid : ∀ (a : α) (i : Nat), numbers[a]? = some i ↔ items[i]? = some a

namespace Bodies

section

variable {α : Type} [Ord α] [Std.TransOrd α] [Std.LawfulEqOrd α]

theorem valid_push {items : Array α} {numbers : Std.TreeMap α Nat}
    (valid : ∀ (a : α) (i : Nat), numbers[a]? = some i ↔ items[i]? = some a) {a : α}
    (hnew : numbers[a]? = none) (b : α) (i : Nat) :
    (numbers.insert a items.size)[b]? = some i ↔ (items.push a)[i]? = some b := by
  have hout : items[i]? ≠ some a := fun hi => by simp [(valid a i).mpr hi] at hnew
  simp only [Std.TreeMap.getElem?_insert, Std.compare_eq_iff_eq, Array.getElem?_push]
  by_cases hab : a = b <;> by_cases hi : i = items.size
  · simp [hab, hi]
  · subst hab
    simp [hi, hout, eq_comm]
  · simp [hab, hi, valid]
  · simp [hab, hi, valid]

instance : EmptyCollection (Bodies α) := ⟨⟨#[], ∅, by simp⟩⟩

def toList (b : Bodies α) : List α := b.items.toList

/-- The number of a body, which is the next one if the body is new. -/
def add (a : α) : Bodies α → Nat × Bodies α
  | ⟨items, numbers, valid⟩ =>
    match hnew : numbers[a]? with
    | some i => (i, ⟨items, numbers, valid⟩)
    | none =>
      let next := items.size
      (next, ⟨items.push a, numbers.insert a next, valid_push valid hnew⟩)

end

variable {α : Type} [Ord α] [Std.TransOrd α] [Std.LawfulEqOrd α]

omit [Std.LawfulEqOrd α] in
@[simp] theorem toList_empty : (∅ : Bodies α).toList = [] := rfl

/-- A body is where its number says. -/
theorem getElem?_add (a : α) (b : Bodies α) : (b.add a).2.toList[(b.add a).1]? = some a := by
  obtain ⟨items, numbers, valid⟩ := b
  unfold add toList
  dsimp only
  split
  · rename_i i hi
    simpa using (valid a i).mp hi
  · simp

/-- A body that is new comes behind all others. -/
theorem toList_add (a : α) (b : Bodies α) :
    a ∈ b.toList ∧ (b.add a).2.toList = b.toList ∨
      a ∉ b.toList ∧ (b.add a).2.toList = b.toList ++ [a] := by
  obtain ⟨items, numbers, valid⟩ := b
  unfold add toList
  dsimp only
  split
  · rename_i i hi
    exact .inl ⟨List.mem_of_getElem? (by simpa using (valid a i).mp hi), rfl⟩
  · rename_i hnew
    refine .inr ⟨fun hmem => ?_, by simp⟩
    obtain ⟨i, hi⟩ := List.mem_iff_getElem?.mp hmem
    have hnumber := (valid a i).mpr (by simpa using hi)
    rw [hnew] at hnumber
    cases hnumber

end Bodies

end UnitRegex
