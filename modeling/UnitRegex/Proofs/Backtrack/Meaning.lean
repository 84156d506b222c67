import UnitRegex.Proofs.Backtrack.CodeOutcomes

/-!
The program of a pattern is run from its first instruction and accepts the preferred outcome of the
pattern. Nothing is assumed of the captures and registers with which the run begins.
-/

namespace UnitRegex

theorem Attempt.Follows.some_eq_head? {a : Attempt} {f : Behavior} (h : a.Follows f)
    (x : MatchState) : a x some = (f x).head? := by
  rw [h]
  cases f x <;> rfl

namespace Pattern

/-- The states that a whole pattern leads to from a state in front of a match. -/
def outcomes (p : Pattern) (text : Text) : Behavior := p.root.outcomes p.flags text .forward

theorem program_code_at (p : Pattern) {s : Snapshot} (hpc : s.pc = 0) :
    Code.At p.program.code s.pc (p.root.code .forward 0 ++ [.accept]) := by
  intro i _
  simp [program, hpc]

/-- A run of the program ends in the first outcome of the pattern. -/
theorem runFrom_eq_head? (p : Pattern) (text : Text) (s : Snapshot) (hpc : s.pc = 0)
    (hsize : p.haltingProgram.registers ≤ s.registers.size) :
    (p.haltingProgram.runFrom text s hpc hsize).map Snapshot.matchState =
      (p.outcomes text s.matchState).head? := by
  have hat := p.program_code_at hpc
  have hregisters : 0 + p.root.registers ≤ s.registers.size := by
    rw [Nat.zero_add]
    exact hsize
  obtain ⟨after, hmap, hbehind, hunfold⟩ :=
    p.root.code_yields p.program text .forward 0 s hat.left hregisters
  have haccept : ∀ t ∈ after, p.program.step text t = .accept := by
    intro t ht
    have hget : p.program.code[t.pc]? = some .accept := by
      rw [(hbehind t ht).1]
      exact hat.right.head
    exact (Program.step_eq hget).trans rfl
  have hruns : p.program.Runs text ([s] ++ []) after.head? := by
    refine hunfold [] after.head? ?_
    rw [List.append_nil]
    exact Program.runs_head? haccept
  have hrun : p.haltingProgram.runFrom text s hpc hsize = after.head? :=
    Program.run_eq_of_runs hruns _
  have hflags : p.program.flags = p.flags := rfl
  rw [hrun, ← List.head?_map, hmap, hflags]
  rfl

/-- The program of a pattern succeeds exactly where trying the pattern does, and with the same
captures. -/
theorem runFrom_eq_attempt (p : Pattern) (text : Text) (s : Snapshot) (hpc : s.pc = 0)
    (hsize : p.haltingProgram.registers ≤ s.registers.size) :
    (p.haltingProgram.runFrom text s hpc hsize).map Snapshot.matchState =
      p.root.attempt p.flags text .forward s.matchState some := by
  rw [p.runFrom_eq_head? text s hpc hsize]
  exact ((p.root.attempt_follows p.flags text .forward).some_eq_head? s.matchState).symm

/-- In `(a)*` on `aa` the last iteration leaves its capture. -/
theorem runFrom_eq_attempt_loop :
    let p : Pattern :=
      ⟨.one (.cons (.group (some 1) (some ⟨0, none, true⟩)
        (.one (.cons (.unit (.single 97)) .nil))) .nil), {}, 2, [], 0⟩
    ∃ hsize, (p.haltingProgram.runFrom #[97, 97] ⟨0, 0, #[7, 7, 7, 7], #[5, 5, 5, 5]⟩ rfl hsize).map
      Snapshot.matchState = some ⟨2, #[0, 2, 1, 2]⟩ := by
  intro p
  have hset : (CharSet.single 97).contains 97 = true := by decide
  refine ⟨by decide, (runFrom_eq_attempt p _ _ _ _).trans ?_⟩
  simp [p, root, Term.attempt, Choice.attempt, Branch.attempt, Attempt.pass, Attempt.repeated,
    Snapshot.matchState, MatchState.clear, MatchState.recordAny, MatchState.record,
    MatchState.moveTo, Text.read, Term.groupSpan, Choice.groupSpan, Branch.groupSpan, spanHull,
    Text.left, Slots.unsetGroups, Slots.setStart, Slots.setStop, hset]

end Pattern

end UnitRegex
