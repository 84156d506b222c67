import UnitRegex.Pattern.Shape

/-!
Patterns as instructions with absolute targets. The instructions are appended one after the other. A
target that lies ahead is left open at first and patched as soon as it is known, and registers are
handed out in the order in which they are needed.
-/

namespace UnitRegex

inductive Op where
  /-- Reads one unit of a set. -/
  | read (set : CharSet) (direction : Direction)
  /-- Tries `first`, then `second`. -/
  | split (first second : Nat)
  | jump (target : Nat)
  /-- Puts the position into a register. -/
  | mark (register : Nat)
  /-- Sets a group to what lies between the position in a register and the current one. -/
  | capture (group register : Nat) (direction : Direction)
  /-- Unsets the slots from `lo` up to `hi`. -/
  | clear (lo hi : Nat)
  | anchor (kind : Anchor)
  /-- Runs the instructions behind it up to a `lookEnd`, and then goes on at `next` from the same
  position. -/
  | look (negated : Bool) (next : Nat)
  | lookEnd
  | backReference (group : Nat) (direction : Direction)
  | repeatInit (counter : Nat)
  /-- Begins another iteration or leaves the loop. -/
  | repeatTest (counter : Nat) (repeats : Quantifier) (exit : Nat)
  /-- Ends an iteration. One past the minimum must not be empty: its position must differ from the
  one in `mark`. -/
  | repeatNext (counter mark min head : Nat)
  | accept
  deriving DecidableEq

/-- Fills in the target that was left open. -/
def Op.leadTo (target : Nat) : Op → Op
  | .split first _ => .split first target
  | .jump _ => .jump target
  | .look negated _ => .look negated target
  | .repeatTest counter repeats _ => .repeatTest counter repeats target
  | op => op

/-- What has been built so far. -/
structure Builder where
  ops : Array Op
  /-- Number of registers that are in use. -/
  registers : Nat

abbrev Assembly := StateM Builder

namespace Assembly

/-- Appends an instruction and tells where it stands. -/
def push (op : Op) : Assembly Nat :=
  modifyGet fun b => (b.ops.size, { b with ops := b.ops.push op })

def emit (op : Op) : Assembly Unit := do let _ ← push op

/-- A register that is not in use yet. -/
def register : Assembly Nat :=
  modifyGet fun b => (b.registers, { b with registers := b.registers + 1 })

/-- Where the next instruction will stand. -/
def here : Assembly Nat := return (← get).ops.size

/-- Lets the instruction at an index lead to the next one. -/
def patch (index target : Nat) : Assembly Unit :=
  modify fun b => { b with ops := b.ops.modify index (Op.leadTo target) }

/-- Alternatives of which all but the last one end in a jump that is still open. -/
def closing (alternatives : Assembly (List Nat)) : Assembly Unit := do
  let jumps ← alternatives
  let stop ← here
  forM jumps (patch · stop)

/-- One pass through a group. A capture is recorded at the end of it. -/
def pass (d : Direction) (capture : Option Nat) (alternatives : Assembly (List Nat)) :
    Assembly Unit := do
  match capture with
  | none => closing alternatives
  | some group =>
    let r ← register
    emit (.mark r)
    closing alternatives
    emit (.capture group r d)

/-- Unsets the captures of a range of groups. -/
def clear : Option (Nat × Nat) → Assembly Unit
  | none => pure ()
  | some (lo, hi) => emit (.clear (2 * lo) (2 * hi))

/-- A loop around one iteration. -/
def loop (q : Quantifier) (once : Assembly Unit) : Assembly Unit := do
  let counter ← register
  let mark ← register
  emit (.repeatInit counter)
  let head ← push (.repeatTest counter q 0)
  emit (.mark mark)
  once
  emit (.repeatNext counter mark q.min head)
  patch head (← here)

def look (negated : Bool) (body : Assembly Unit) : Assembly Unit := do
  let look ← push (.look negated 0)
  body
  emit .lookEnd
  patch look (← here)

/-- An alternative with others behind it. -/
def either (first : Assembly Unit) (others : Assembly (List Nat)) : Assembly (List Nat) := do
  let split ← push (.split ((← here) + 1) 0)
  first
  let jump ← push (.jump 0)
  patch split (← here)
  return jump :: (← others)

end Assembly

mutual

/-- Appends the instructions of a term. What reads to the left is laid out in reverse. -/
def Term.emit (d : Direction) : Term → Assembly Unit
  | .unit set => Assembly.emit (.read set d)
  | .anchor kind => Assembly.emit (.anchor kind)
  | .backReference group => Assembly.emit (.backReference group d)
  | .look behind negated body =>
    .look negated (.closing (body.emit (if behind then .backward else .forward)))
  | .group capture none body => .pass d capture (body.emit d)
  | .group capture (some q) body =>
    .loop q do
      Assembly.clear (Term.group capture (some q) body).groupSpan
      Assembly.pass d capture (body.emit d)

def Branch.emit (d : Direction) : Branch → Assembly Unit
  | .nil => pure ()
  | .cons t rest =>
    match d with
    | .forward => do t.emit d; rest.emit d
    | .backward => do rest.emit d; t.emit d

/-- Appends the instructions of all alternatives and tells which jumps are still open. -/
def Choice.emit (d : Direction) : Choice → Assembly (List Nat)
  | .one b => do b.emit d; return []
  | .more b rest => .either (b.emit d) (rest.emit d)

end

/-- The instructions of a pattern with the memory that they need. -/
structure Machine where
  ops : Array Op
  registers : Nat
  groupCount : Nat
  flags : Flags

def Pattern.machine (p : Pattern) : Machine :=
  let built := (do p.root.emit .forward; Assembly.emit .accept : Assembly Unit).run ⟨#[], 0⟩
  ⟨built.2.ops, built.2.registers, p.groupCount, p.flags⟩

end UnitRegex
