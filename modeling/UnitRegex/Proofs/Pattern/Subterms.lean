import UnitRegex.Pattern.Shape
import UnitRegex.Proofs.Pattern.WellFormed

/-!
The terms inside of a term. They are well-formed if the whole is, and have no back-reference if the
whole has none.
-/

namespace UnitRegex

mutual

/-- A term and all terms inside of it, from left to right. -/
def Term.subterms : Term → List Term
  | .unit set => [.unit set]
  | .anchor kind => [.anchor kind]
  | .backReference n => [.backReference n]
  | .look behind negated body => .look behind negated body :: body.subterms
  | .group capture repeats body => .group capture repeats body :: body.subterms

def Branch.subterms : Branch → List Term
  | .nil => []
  | .cons t rest => t.subterms ++ rest.subterms

def Choice.subterms : Choice → List Term
  | .one b => b.subterms
  | .more b rest => b.subterms ++ rest.subterms

end

variable {flags : Flags} {context : Nat} {u : Term}

mutual

theorem Term.WellFormed.of_mem_subterms {t : Term} (h : t.WellFormed flags context)
    (hu : u ∈ t.subterms) : u.WellFormed flags context := by
  match t with
  | .unit _ | .anchor _ | .backReference _ => exact List.mem_singleton.mp hu ▸ h
  | .look _ _ body =>
    rcases List.mem_cons.mp hu with rfl | hu
    · exact h
    · exact Choice.WellFormed.of_mem_subterms h.1 hu
  | .group _ _ body =>
    rcases List.mem_cons.mp hu with rfl | hu
    · exact h
    · exact Choice.WellFormed.of_mem_subterms h.1 hu

theorem Branch.WellFormed.of_mem_subterms {b : Branch} (h : b.WellFormed flags context)
    (hu : u ∈ b.subterms) : u.WellFormed flags context := by
  match b with
  | .nil => cases hu
  | .cons t rest =>
    rcases List.mem_append.mp hu with hu | hu
    · exact Term.WellFormed.of_mem_subterms h.1 hu
    · exact Branch.WellFormed.of_mem_subterms h.2 hu

theorem Choice.WellFormed.of_mem_subterms {c : Choice} (h : c.WellFormed flags context)
    (hu : u ∈ c.subterms) : u.WellFormed flags context := by
  match c with
  | .one b => exact Branch.WellFormed.of_mem_subterms (b := b) h hu
  | .more b rest =>
    rcases List.mem_append.mp hu with hu | hu
    · exact Branch.WellFormed.of_mem_subterms h.1 hu
    · exact Choice.WellFormed.of_mem_subterms h.2 hu

end

mutual

theorem Term.hasBackReference_of_mem_subterms {t : Term} (h : t.hasBackReference = false)
    (hu : u ∈ t.subterms) : u.hasBackReference = false := by
  match t with
  | .unit _ | .anchor _ | .backReference _ => exact List.mem_singleton.mp hu ▸ h
  | .look _ _ body | .group _ _ body =>
    rcases List.mem_cons.mp hu with rfl | hu
    · exact h
    · exact body.hasBackReference_of_mem_subterms h hu

theorem Branch.hasBackReference_of_mem_subterms {b : Branch} (h : b.hasBackReference = false)
    (hu : u ∈ b.subterms) : u.hasBackReference = false := by
  match b with
  | .nil => cases hu
  | .cons t rest =>
    obtain ⟨ht, hrest⟩ := Bool.or_eq_false_iff.mp h
    rcases List.mem_append.mp hu with hu | hu
    · exact t.hasBackReference_of_mem_subterms ht hu
    · exact rest.hasBackReference_of_mem_subterms hrest hu

theorem Choice.hasBackReference_of_mem_subterms {c : Choice} (h : c.hasBackReference = false)
    (hu : u ∈ c.subterms) : u.hasBackReference = false := by
  match c with
  | .one b => exact b.hasBackReference_of_mem_subterms h hu
  | .more b rest =>
    obtain ⟨hb, hrest⟩ := Bool.or_eq_false_iff.mp h
    rcases List.mem_append.mp hu with hu | hu
    · exact b.hasBackReference_of_mem_subterms hb hu
    · exact rest.hasBackReference_of_mem_subterms hrest hu

end

end UnitRegex
