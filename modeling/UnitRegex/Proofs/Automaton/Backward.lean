import UnitRegex.Proofs.Automaton.Captureless
import UnitRegex.Proofs.Automaton.Invariance
import UnitRegex.Proofs.Automaton.Whole

/-!
The automaton of a pattern to the left. From the end of a stretch of the text it leads to all its
starts and to nothing else; which of them it prefers does not matter.
-/

namespace UnitRegex

namespace Nfa

/-- Some path from a configuration is accepted at a position. -/
inductive LeadsTo (nfa : Nfa) (text : Text) : Configuration → Nat → Prop
  | stop {x : Configuration} (h : nfa.state x.state = .accept) : LeadsTo nfa text x x.cursor
  | step {x y : Configuration} {i : Nat} (h : y ∈ nfa.steps text text.size x)
    (hrest : LeadsTo nfa text y i) : LeadsTo nfa text x i

variable {nfa : Nfa} {text : Text} {x : Configuration} {i : Nat}

theorem leadsTo_of_accept (h : nfa.state x.state = .accept) :
    nfa.LeadsTo text x i ↔ i = x.cursor := by
  constructor
  · intro hleads
    cases hleads with
    | stop _ => rfl
    | step hstep _ =>
      have hstate : nfa.state x.thread.state = .accept := h
      rw [steps_of_not_unit (by simp [h])] at hstep
      simp [Thread.successors, hstate] at hstep
  · rintro rfl
    exact .stop h

theorem leadsTo_of_steps (h : nfa.state x.state ≠ .accept) :
    nfa.LeadsTo text x i ↔ ∃ y ∈ nfa.steps text text.size x, nfa.LeadsTo text y i := by
  constructor
  · intro hleads
    cases hleads with
    | stop haccept => exact absurd haccept h
    | step hstep hrest => exact ⟨_, hstep, hrest⟩
  · rintro ⟨y, hstep, hrest⟩
    exact .step hstep hrest

/-- Where configurations lead does not change while they are replaced by those one step further. -/
theorem Unfolds.leadsTo {lo hi : Nat} {a b : List Configuration}
    (h : nfa.Unfolds text lo hi a b) (i : Nat) :
    (∃ x ∈ a, nfa.LeadsTo text x i) ↔ ∃ y ∈ b, nfa.LeadsTo text y i := by
  induction h with
  | nil => rfl
  | leave x _ ih => rw [List.exists_mem_cons_iff, List.exists_mem_cons_iff, ih]
  | step _ _ haccept _ _ ihways ih =>
    rw [List.exists_mem_cons_iff, leadsTo_of_steps haccept, ihways, ih]
    simp only [List.mem_append, or_and_right, exists_or]

/-- An automaton that realizes a behavior leads to the positions that the behavior leads to. -/
theorem Realizes.leadsTo {f : Text → Behavior} (h : nfa.Realizes f) (hx : x.cursor ≤ text.size)
    (hcounts : nfa.counters ≤ x.thread.counts.length) (i : Nat) :
    nfa.LeadsTo text (x.goTo nfa.start) i ↔ ∃ y ∈ f text x.matchState, y.cursor = i := by
  obtain ⟨after, hmap, haccept, hunfold⟩ := h.yields text x hx hcounts
  have hleads := hunfold.leadsTo i
  rw [List.exists_mem_cons_iff] at hleads
  simp only [List.not_mem_nil, false_and, exists_false, or_false] at hleads
  rw [hleads, ← hmap]
  constructor
  · rintro ⟨y, hy, hend⟩
    exact ⟨y.matchState, List.mem_map_of_mem hy, ((leadsTo_of_accept (haccept y hy)).mp hend).symm⟩
  · rintro ⟨_, hmem, rfl⟩
    obtain ⟨y, hy, rfl⟩ := List.mem_map.mp hmem
    exact ⟨y, hy, (leadsTo_of_accept (haccept y hy)).mpr rfl⟩

end Nfa

/-- The automaton of a pattern to the left. -/
structure Pattern.CompiledBack (p : Pattern) (nfa : Nfa) : Prop where
  grounded : nfa.Grounded
  direction : nfa.direction = .backward
  guards : ∀ s, (nfa.state s).GuardIn .backward nfa.lookAheads.length
  leads : ∀ (text : Text) (stop i : Nat), stop ≤ text.size →
    (nfa.LeadsTo text ⟨stop, ⟨nfa.start, List.replicate nfa.counters 0, #[]⟩⟩ i ↔
      p.root.Spans p.flags text i stop)

namespace BuildPlan

variable {plan : BuildPlan} {p : Pattern}

theorem run_backward (hd : plan.direction = .backward)
    (hmulti : plan.multiline = p.flags.multiline) (hwf : p.WellFormed)
    (href : p.hasBackReference = false) {nfa : Nfa} {after : Draft}
    (h : plan.run p {} = .ok (nfa, after)) : p.CompiledBack nfa := by
  obtain ⟨accept, first, hadd, h⟩ := Build.bind_eq_ok.mp h
  obtain ⟨start, second, hroot, h⟩ := Build.bind_eq_ok.mp h
  simp only [hd, pure_bind, Build.get_bind] at h
  obtain ⟨rfl, rfl⟩ := Build.pure_eq_ok.mp h
  obtain ⟨context, hwf'⟩ := Term.WellFormed.exists_withoutCaptures hwf
  have href' : p.root.withoutCaptures.hasBackReference = false := by
    rw [p.root.hasBackReference_withoutCaptures]
    exact href
  have hemitted : ∀ text, Emitted context plan.direction text first after [start] accept
      (p.root.withoutCaptures.outcomes p.flags text plan.direction)
      p.root.withoutCaptures.nullable := by
    intro text
    rw [← p.root.compile_withoutCaptures hd] at hroot
    refine p.root.withoutCaptures.compile_emits hmulti hwf' href'
      (.inr p.root.groupSpan_withoutCaptures) _ accept _ _ _ hroot ?_
    obtain ⟨-, rfl, hsize, -⟩ := Build.grows_of_add hadd
    omega
  have hsound : after.Sound context plan.direction := by
    have hempty : ({} : Draft).Sound context plan.direction :=
      ⟨by simp [Draft.lookBehinds], by simp [Draft.lookAheads], by simp⟩
    exact (hemitted #[]).sound (hempty.add hadd trivial)
  rw [hd] at hsound
  generalize hnfa : (⟨after.nodes, start, [start], [start], after.lookBehinds, after.lookAheads,
    after.counters, p.groupCount, .backward⟩ : Nfa) = nfa
  have hrealizes : nfa.Realizes fun text =>
      p.root.withoutCaptures.outcomes p.flags text plan.direction :=
    realizes_of_emits hadd hemitted (.refl start after) (by rw [← hnfa]) (by rw [← hnfa])
      (by rw [← hnfa]) (by rw [← hnfa]) (by rw [← hnfa]) (by rw [← hnfa, hd])
  refine ⟨hrealizes.grounded, by rw [← hnfa],
    hsound.guardIn_state (by rw [← hnfa]) (by rw [← hnfa]), fun text stop i hstop => ?_⟩
  have hleads := hrealizes.leadsTo
    (x := ⟨stop, ⟨nfa.start, List.replicate nfa.counters 0, #[]⟩⟩) hstop (by simp) i
  have htraces : (p.root.withoutCaptures.outcomes p.flags text plan.direction).Traces _ :=
    p.root.withoutCaptures.outcomes_traces plan.direction hwf' href'
  rw [hd, p.root.spans_withoutCaptures] at htraces
  rw [hd] at hleads
  exact hleads.trans (htraces ⟨stop, #[]⟩ i)

end BuildPlan

/-- A pattern that is numbered once and has an automaton to the left has this one. -/
theorem Nfa.compiledBack_of_build {p : NumberedPattern} {config : Config} {nfa : Nfa}
    (hwf : p.WellFormed) (h : Nfa.build p config .backward = .ok nfa) : p.CompiledBack nfa := by
  obtain ⟨href, after, hrun⟩ := Nfa.run_of_build h
  exact BuildPlan.run_backward rfl rfl hwf href hrun

end UnitRegex
