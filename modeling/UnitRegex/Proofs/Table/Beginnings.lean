import Mathlib
import UnitRegex.Proofs.Table.LookingBack

/-!
Progress through the bodies of look-behinds, folded over a whole text. It is the strictly ascending
list of the beginnings of bodies that the text ends with, so it depends on no more units than the
longest body has, and it answers what the look-behinds at the end of the text answer.
-/

namespace UnitRegex

/-- The last units of a text are in the sets of a row, one after the other. -/
def EndsWith (w : List CodeUnit) (sets : List CharSet) : Prop :=
  List.Forall₂ (fun set u => set.contains u = true) sets (w.drop (w.length - sets.length))

namespace EndsWith

variable {w v rest : List CodeUnit} {sets : List CharSet}

theorem length_le (h : EndsWith w sets) : sets.length ≤ w.length := by
  have := h.length_eq
  rw [List.length_drop] at this
  omega

/-- A row is found at the end of a text whatever is in front of as many units as it has sets. -/
theorem append (h : sets.length ≤ w.length) : EndsWith (v ++ w) sets ↔ EndsWith w sets := by
  have hlength : (v ++ w).length - sets.length = v.length + (w.length - sets.length) := by
    rw [List.length_append]
    omega
  rw [EndsWith, hlength, List.drop_append, Nat.add_sub_cancel_left, List.drop_of_length_le (by omega),
    List.nil_append, EndsWith]

end EndsWith

namespace Progress

/-- The order of progress: first by body, then by the number of sets. -/
def Before (a b : UInt16 × UInt16) : Prop := a.1 < b.1 ∨ a.1 = b.1 ∧ a.2 < b.2

theorem before_of_le {a b : UInt16 × UInt16} (h : le a b = true) (hne : a ≠ b) : Before a b := by
  simp only [le, Bool.or_eq_true, decide_eq_true_eq, Bool.and_eq_true, beq_iff_eq] at h
  refine h.imp id fun ⟨hbody, hsets⟩ => ⟨hbody, ?_⟩
  exact UInt16.lt_of_le_of_ne hsets fun heq => hne (Prod.ext hbody heq)

theorem before_irrefl (a : UInt16 × UInt16) : ¬Before a a := by
  rintro (h | ⟨-, h⟩) <;> exact UInt16.lt_irrefl _ h

theorem before_asymm {a b : UInt16 × UInt16} (hab : Before a b) : ¬Before b a := by
  simp only [Before, UInt16.lt_iff_toNat_lt, ← UInt16.toNat_inj] at *
  omega

theorem pairwise_after (nfa : Nfa) (progress : Progress) (u : CodeUnit) :
    (progress.after nfa u).Pairwise Before := by
  let all := nfa.lookBehinds.zipIdx.flatMap fun b => progress.bodyAfter u b.1 b.2
  have hsorted : (all.mergeSort le).Pairwise fun a b => le a b = true := List.pairwise_mergeSort
    (fun a b c hab hbc => by
      simp only [le, Bool.or_eq_true, decide_eq_true_eq, Bool.and_eq_true, beq_iff_eq,
        UInt16.lt_iff_toNat_lt, UInt16.le_iff_toNat_le, ← UInt16.toNat_inj] at *
      omega)
    (fun a b => by
      simp only [le, Bool.or_eq_true, decide_eq_true_eq, Bool.and_eq_true, beq_iff_eq,
        UInt16.lt_iff_toNat_lt, UInt16.le_iff_toNat_le, ← UInt16.toNat_inj]
      omega)
    all
  have hantisymm : ∀ a b, le a b = true → le b a = true → a = b := by
    intro a b hab hba
    by_contra hne
    exact before_asymm (before_of_le hab hne) (before_of_le hba (Ne.symm hne))
  exact (pairwise_eraseReps hantisymm hsorted).imp fun h => before_of_le h.1 h.2

theorem nodup_of_pairwise_before {p : Progress} (h : p.Pairwise Before) : p.Nodup := by
  apply h.imp
  intro a b hab heq
  exact before_irrefl b (heq ▸ hab)

section

variable {nfa : Nfa}

end

end Progress

end UnitRegex
