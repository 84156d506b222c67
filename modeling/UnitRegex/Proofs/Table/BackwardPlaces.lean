import UnitRegex.Proofs.Automaton.Backward
import UnitRegex.Proofs.Search.Explored
import UnitRegex.Table.BackwardSubset

/-!
The starts that places of the backward table lead to. A place may hold on to the assertion that the
input starts here; the places one step further lead to the same starts, and an exploration finds a
start if one of its places leads to it.
-/

namespace UnitRegex

/-- A proposition as something that is found if it holds. -/
noncomputable def found? (P : Prop) : Option Unit :=
  open Classical in if P then some () else none

section

variable {P Q : Prop}

theorem isSome_found? : (found? P).isSome = true ↔ P := by
  unfold found?
  split <;> simp [*]

theorem found?_eq_some_iff {u : Unit} : found? P = some u ↔ P := by
  unfold found?
  split <;> simp [*]

theorem found?_eq_none_iff : found? P = none ↔ ¬P := by
  unfold found?
  split <;> simp [*]

theorem found?_of_not (h : ¬P) : found? P = none := if_neg h

theorem found?_congr (h : P ↔ Q) : found? P = found? Q := by
  rw [propext h]

theorem found?_or (P Q : Prop) : found? (P ∨ Q) = (found? P).or (found? Q) := by
  by_cases hP : P
  · simp [found?, hP]
  · rw [found?_of_not hP, Option.none_or]
    exact found?_congr (or_iff_right hP)

theorem findSome?_found? {α : Type} (l : List α) (R : α → Prop) :
    (l.findSome? fun a => found? (R a)) = found? (∃ a ∈ l, R a) := by
  induction l with
  | nil => rw [List.findSome?_nil, found?_of_not (by simp)]
  | cons a l ih =>
    rw [found?_congr (List.exists_mem_cons_iff _ _ _), found?_or, ← ih, List.findSome?_cons]
    cases found? (R a) <;> rfl

end

namespace Nfa

/-- Some path from a state with its counters is accepted at a position. -/
def LeadsFrom (nfa : Nfa) (text : Text) (cursor : Nat) (a : Nat × List Nat) (i : Nat) : Prop :=
  nfa.LeadsTo text ⟨cursor, ⟨a.1, a.2, #[]⟩⟩ i

variable {nfa : Nfa} {text : Text} {cursor i : Nat} {a : Nat × List Nat}

theorem leadsFrom_of_accept (h : nfa.state a.1 = .accept) :
    nfa.LeadsFrom text cursor a i ↔ i = cursor := leadsTo_of_accept h

theorem leadsFrom_of_steps (hunit : ∀ set next, nfa.state a.1 ≠ .unit set next)
    (haccept : nfa.state a.1 ≠ .accept) :
    nfa.LeadsFrom text cursor a i ↔
      ∃ t ∈ Thread.successors nfa text cursor ⟨a.1, a.2, #[]⟩, nfa.LeadsTo text ⟨cursor, t⟩ i := by
  rw [LeadsFrom, leadsTo_of_steps haccept, steps_of_not_unit hunit]
  simp only [List.mem_map, exists_exists_and_eq_and]

/-- To the left a unit in front of the position is read. -/
theorem leadsFrom_of_unit (hd : nfa.direction = .backward) {set : CharSet} {next : Nat}
    (h : nfa.state a.1 = .unit set next) {u : CodeUnit} (hu : text[cursor]? = some u) :
    nfa.LeadsFrom text (cursor + 1) a i ↔
      set.contains u = true ∧ nfa.LeadsFrom text cursor (next, a.2) i := by
  have hstate : nfa.state (⟨cursor + 1, ⟨a.1, a.2, #[]⟩⟩ : Configuration).state =
      .unit set next := h
  rw [LeadsFrom, leadsTo_of_steps (by simp [hstate]), steps_of_unit hstate, hd]
  simp only [Text.read, Nat.add_one_ne_zero, if_false, Nat.add_sub_cancel, hu, Option.map_some]
  by_cases hset : set.contains u = true
  · simp [hset, LeadsFrom, Configuration.goTo]
  · simp [hset]

/-- The start of a stretch is never behind its end. -/
theorem LeadsTo.le (hd : nfa.direction = .backward) {x : Configuration}
    (h : nfa.LeadsTo text x i) : i ≤ x.cursor := by
  induction h with
  | stop _ => exact Nat.le_refl _
  | step hstep _ ih =>
    rcases mem_steps hstep with ⟨_, _, _, _, hread, _, _⟩ | ⟨hcursor, _⟩
    · have hlt := Text.left_lt_of_read hread
      rw [hd] at hlt
      simp only [Text.left] at hlt
      omega
    · omega

/-- In front of a unit the start of a match lies further to the left. -/
theorem lt_of_leadsFrom_unit (hd : nfa.direction = .backward) {set : CharSet} {next : Nat}
    (h : nfa.state a.1 = .unit set next) (hleads : nfa.LeadsFrom text cursor a i) : i < cursor := by
  have hstate : nfa.state (⟨cursor, ⟨a.1, a.2, #[]⟩⟩ : Configuration).state = .unit set next := h
  rw [LeadsFrom, leadsTo_of_steps (by simp [hstate])] at hleads
  obtain ⟨y, hstep, hrest⟩ := hleads
  have hle := hrest.le hd
  rcases mem_steps hstep with ⟨_, _, _, _, hread, _, _⟩ | ⟨-, hmem⟩
  · have hlt := Text.left_lt_of_read hread
    rw [hd] at hlt
    exact Nat.lt_of_le_of_lt hle hlt
  · have hthread : nfa.state a.1 = .unit set next := h
    simp [Thread.successors, hthread] at hmem

end Nfa

namespace BackwardPlace

variable {nfa : Nfa} {text : Text} {cursor i : Nat} {atEnd : Bool}

/-- A match starts at a position if a place lies where it is. -/
def Leads (nfa : Nfa) (text : Text) (cursor i : Nat) (p : BackwardPlace) : Prop :=
  (p.caret = true → cursor = 0) ∧ nfa.LeadsFrom text cursor (p.state, p.counts) i

/-- The places one step further lead to the same starts. -/
theorem leads_iff_successors (hguard : ∀ s, (nfa.state s).GuardIn .backward nfa.lookAheads.length)
    (hatEnd : atEnd = true ↔ cursor = text.size) {p : BackwardPlace}
    (hunit : ∀ set next, nfa.state p.state ≠ .unit set next)
    (haccept : nfa.state p.state ≠ .accept) :
    p.Leads nfa text cursor i ↔ ∃ q ∈ p.successors nfa atEnd, q.Leads nfa text cursor i := by
  have hsteps : nfa.LeadsFrom text cursor (p.state, p.counts) i ↔ _ :=
    Nfa.leadsFrom_of_steps hunit haccept
  rw [Leads, hsteps]
  rcases (nfa.state p.state).assert_or with ⟨guard, next, hs⟩ | hassert
  · have hstate := hguard p.state
    rw [hs] at hstate
    cases guard with
    | caret =>
      simp only [Thread.successors, successors, hs, Nfa.holds, List.mem_singleton, exists_eq_left,
        Leads, Nfa.LeadsFrom, forall_const]
      by_cases hzero : cursor = 0 <;> simp [hzero]
    | dollar =>
      have hholds : nfa.holds text cursor .dollar = atEnd := by
        rw [Bool.eq_iff_iff, hatEnd]
        simp [Nfa.holds]
      simp only [Thread.successors, successors, hs, hholds]
      cases atEnd <;> simp [Leads, Nfa.LeadsFrom]
    | behind body negated => exact absurd hstate (by simp [NfaState.GuardIn])
    | ahead body negated => exact absurd hstate.1 (by simp)
  · rw [successors_of_not_assert hassert,
      Thread.successors_of_not_assert (a := (p.state, p.counts)) hassert]
    simp only [List.mem_map, exists_exists_and_eq_and, Leads, Nfa.LeadsFrom]
    rw [← exists_and_left]
    exact exists_congr fun b => and_left_comm

end BackwardPlace

end UnitRegex
