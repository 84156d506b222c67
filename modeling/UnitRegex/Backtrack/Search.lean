import UnitRegex.Backtrack.Halting
import UnitRegex.Search.SearchResult

/-!
Search by backtracking. It supports every pattern: the code of the whole pattern is run at one
position after the other until a run accepts.
-/

namespace UnitRegex

/-- A program whose runs all end, whatever was captured before. -/
structure HaltingProgram extends Program where
  halts : ∀ text (s : Snapshot), s.pc = 0 → registers ≤ s.registers.size →
    toProgram.Halts text s

namespace Pattern

def program (p : Pattern) : Program :=
  { code := (p.root.code .forward 0 ++ [Instruction.accept]).toArray
    registers := p.root.registers
    groupCount := p.groupCount
    flags := p.flags }

theorem program_halts (p : Pattern) (text : Text) (s : Snapshot) (hpc : s.pc = 0)
    (hsize : p.program.registers ≤ s.registers.size) : p.program.Halts text s := by
  have hat : Code.At p.program.code s.pc (p.root.code .forward 0 ++ [.accept]) := fun i _ => by
    simp [program, hpc]
  refine p.root.code_halts p.program text .forward 0 s hat.left (by simpa [program] using hsize)
    fun t ht _ => ⟨t, fun u hu => ?_⟩
  have hget : p.program.code[t.pc]? = some .accept := ht ▸ hat.right.head
  simp [Program.Leads, Program.step_eq hget, Program.execute] at hu

def haltingProgram (p : Pattern) : HaltingProgram := ⟨p.program, p.program_halts⟩

end Pattern

namespace HaltingProgram

/-- The snapshot that accepts first when the program is run from its first instruction. -/
def runFrom (p : HaltingProgram) (text : Text) (s : Snapshot) (hpc : s.pc = 0)
    (hsize : p.registers ≤ s.registers.size) : Option Snapshot :=
  p.run text [s] (by simpa using p.halts text s hpc hsize)

/-- The captures of the preferred match that starts at a position. -/
def matchAt? (p : HaltingProgram) (text : Text) (cursor : Nat) : Option Slots :=
  (p.runFrom text (p.start cursor) rfl (by simp [Program.start])).map (·.slots)

/-- The captures of the preferred match at the first of a number of positions that has one. -/
def matchFrom? (p : HaltingProgram) (text : Text) (start : Nat) : Nat → Option Slots
  | 0 => none
  | attempts + 1 =>
    match p.matchAt? text start with
    | some slots => some slots
    | none => p.matchFrom? text (start + 1) attempts

/-- The preferred match at the first position from `start` on that has one. A sticky pattern only
matches at `start` itself. -/
def find (p : HaltingProgram) (text : Text) (start : Nat) : SearchResult :=
  if text.size < start then .noMatch
  else
    match p.matchFrom? text start (if p.flags.sticky then 1 else text.size - start + 1) with
    | some slots => ⟨slots⟩
    | none => .noMatch

end HaltingProgram

end UnitRegex
