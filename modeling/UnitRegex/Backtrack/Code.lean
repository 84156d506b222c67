import UnitRegex.Pattern.Shape

/-!
Patterns as code for a backtracking machine. Jumps are relative, so code does the same wherever it
is placed. Every loop and every capture group has registers of its own.
-/

namespace UnitRegex

inductive Instruction where
  /-- Reads one unit of a set. -/
  | read (set : CharSet) (direction : Direction)
  /-- Goes on with the next instruction or, if that fails, `offset` instructions further. -/
  | split (offset : Nat)
  | jump (offset : Nat)
  /-- Puts the position into a register. -/
  | mark (register : Nat)
  /-- Sets a group to what lies between the position in a register and the current one. -/
  | capture (group register : Nat) (direction : Direction)
  /-- Unsets the groups from `lo` up to `hi`. -/
  | unset (lo hi : Nat)
  | anchor (kind : Anchor)
  /-- Runs the code behind it up to an `accept` as a look-around, and then goes on `offset`
  instructions further from the same position. -/
  | look (negated : Bool) (offset : Nat)
  | backReference (group : Nat) (direction : Direction)
  | loopInit (counter : Nat)
  /-- Begins another iteration or leaves the loop, `offset` instructions further. -/
  | loopHead (counter : Nat) (repeats : Quantifier) (offset : Nat)
  /-- Ends an iteration and goes back to the head. One past the minimum must not be empty: its
  position must differ from the one in `mark`. -/
  | loopNext (counter mark min offset : Nat)
  | accept
  deriving DecidableEq

mutual

/-- Number of registers that the code of a term uses. -/
def Term.registers : Term → Nat
  | .unit _ | .anchor _ | .backReference _ => 0
  | .look _ _ body => body.registers
  | .group _ none body => body.registers + 1
  | .group _ (some _) body => body.registers + 3

def Branch.registers : Branch → Nat
  | .nil => 0
  | .cons t rest => t.registers + rest.registers

def Choice.registers : Choice → Nat
  | .one b => b.registers
  | .more b rest => b.registers + rest.registers

end

abbrev Code := List Instruction

namespace Code

/-- One pass through a group. A capture is recorded at the end of it. -/
def pass (d : Direction) (r : Nat) (capture : Option Nat) (body : Code) : Code :=
  match capture with
  | some group => .mark r :: (body ++ [.capture group r d])
  | none => body

/-- Unsets the captures inside a loop. -/
def clear : Option (Nat × Nat) → Code
  | some (lo, hi) => [.unset lo hi]
  | none => []

/-- A loop around the code of one iteration. -/
def loop (r : Nat) (q : Quantifier) (body : Code) : Code :=
  .loopInit r :: .loopHead r q (body.length + 3) :: .mark (r + 1) ::
    (body ++ [.loopNext r (r + 1) q.min (body.length + 2)])

/-- Two pieces of code as alternatives. -/
def choice (first second : Code) : Code :=
  .split (first.length + 2) :: (first ++ .jump (second.length + 1) :: second)

def look (negated : Bool) (body : Code) : Code :=
  .look negated (body.length + 2) :: (body ++ [.accept])

end Code

mutual

/-- The code of a term; its registers start at `r`. -/
def Term.code (d : Direction) (r : Nat) : Term → Code
  | .unit set => [.read set d]
  | .anchor kind => [.anchor kind]
  | .backReference group => [.backReference group d]
  | .look behind negated body =>
    .look negated (body.code (if behind then .backward else .forward) r)
  | .group capture none body => .pass d r capture (body.code d (r + 1))
  | .group capture (some q) body =>
    .loop r q (.clear (Term.group capture (some q) body).groupSpan ++
      .pass d (r + 2) capture (body.code d (r + 3)))

def Branch.code (d : Direction) (r : Nat) : Branch → Code
  | .nil => []
  | .cons t rest =>
    match d with
    | .forward => t.code d r ++ rest.code d (r + t.registers)
    | .backward => rest.code d (r + t.registers) ++ t.code d r

def Choice.code (d : Direction) (r : Nat) : Choice → Code
  | .one b => b.code d r
  | .more b rest => .choice (b.code d r) (rest.code d (r + b.registers))

end

end UnitRegex
