import UnitRegex.Backtrack.Emit
import UnitRegex.Backtrack.Machine
import UnitRegex.Search.SearchResult

/-!
A backtracking machine with one memory. All attempts share the captures and the registers. Whoever
changes them leaves a job on the stack that restores them, which is worked off when the attempt has
failed and an earlier one is resumed.
-/

namespace UnitRegex

/-- What is left to do on the stack. -/
inductive Job where
  | resume (pc cursor : Nat)
  | restoreSlot (slot : Nat) (value : Int)
  | restoreRegister (register value : Nat)
  deriving DecidableEq

structure Memory where
  registers : Array Nat
  slots : Slots
  deriving DecidableEq

/-- What an instruction does to the attempt that has come to it. -/
inductive Effect where
  | accept
  | fail
  /-- The attempt goes on, with some jobs left behind for when it has failed. -/
  | go (pc cursor : Nat) (pushed : List Job) (memory : Memory)
  /-- It depends on a run of the instructions behind this one. -/
  | look (negated : Bool) (next : Nat)

namespace Memory

def restoreSlot (m : Memory) (slot : Nat) (value : Int) : Memory :=
  { m with slots := m.slots.setIfInBounds slot value }

def restoreRegister (m : Memory) (r value : Nat) : Memory :=
  { m with registers := m.registers.setIfInBounds r value }

/-- Sets slots one after the other and pushes jobs that restore them. There is no result for a slot
that does not exist. -/
def setSlots (m : Memory) (pushed : List Job) : List (Nat × Int) → Option (List Job × Memory)
  | [] => some (pushed, m)
  | (slot, value) :: rest => do
    let old ← m.slots[slot]?
    (m.restoreSlot slot value).setSlots (.restoreSlot slot old :: pushed) rest

end Memory

/-- Jobs that restore those of the first `n` slots that differ from what was saved of them. They are
pushed from the first slot on. -/
def Slots.restoreFirst (saved now : Slots) : Nat → List Job
  | 0 => []
  | n + 1 =>
    match saved[n]? with
    | some value =>
      if now[n]? = some value then saved.restoreFirst now n
      else .restoreSlot n value :: saved.restoreFirst now n
    | none => saved.restoreFirst now n

def Slots.restore (saved now : Slots) : List Job := saved.restoreFirst now saved.size

namespace Machine

/-- Goes on at `pc` with a register set. There is no result for a register that does not exist. -/
def setRegister (m : Memory) (r value pc cursor : Nat) : Option Effect :=
  m.registers[r]?.map fun old =>
    .go pc cursor [.restoreRegister r old] (m.restoreRegister r value)

/-- Goes on at `pc` with slots set. -/
def setSlots (m : Memory) (changes : List (Nat × Int)) (pc cursor : Nat) : Option Effect :=
  (m.setSlots [] changes).map fun (pushed, m) => .go pc cursor pushed m

/-- Executes one instruction. There is no result if it refers to memory that does not exist. -/
def execute (p : Machine) (text : Text) (m : Memory) (pc cursor : Nat) : Op → Option Effect
  | .read set d =>
    match text.read cursor d with
    | some (c, next) => some (if set.contains c then .go (pc + 1) next [] m else .fail)
    | none => some .fail
  | .split first second => some (.go first cursor [.resume second cursor] m)
  | .jump target => some (.go target cursor [] m)
  | .mark r => setRegister m r cursor (pc + 1) cursor
  | .capture group r d => do
    let origin ← m.registers[r]?
    let (start, stop) := match d with
      | .forward => (origin, cursor)
      | .backward => (cursor, origin)
    setSlots m [(2 * group, start), (2 * group + 1, stop)] (pc + 1) cursor
  | .clear lo hi => setSlots m ((List.range' lo (hi - lo)).map (·, -1)) (pc + 1) cursor
  | .anchor kind =>
    some (if kind.holds p.flags.multiline text cursor then .go (pc + 1) cursor [] m else .fail)
  | .look negated next => some (.look negated next)
  | .lookEnd | .accept => some .accept
  | .backReference group d =>
    if 2 * group + 1 < m.slots.size then
      match text.readGroup p.flags m.slots group cursor d with
      | some next => some (.go (pc + 1) next [] m)
      | none => some .fail
    else none
  | .repeatInit counter => setRegister m counter 0 (pc + 1) cursor
  | .repeatTest counter q exit => do
    let count ← m.registers[counter]?
    if count < q.min then some (.go (pc + 1) cursor [] m)
    else if q.max.any (· ≤ count) then some (.go exit cursor [] m)
    else if q.greedy then some (.go (pc + 1) cursor [.resume exit cursor] m)
    else some (.go exit cursor [.resume (pc + 1) cursor] m)
  | .repeatNext counter mark min head => do
    let count ← m.registers[counter]?
    let origin ← m.registers[mark]?
    if min ≤ count ∧ cursor = origin then some .fail
    else setRegister m counter (count + 1) head cursor

/-- Works off a stack of jobs, the topmost first, until an attempt accepts at some position, and
gives the memory as it is then. There is no result if this never ends, if an attempt leaves the
instructions, or if it refers to memory that does not exist. The run of a look-around has a stack of
its own, which is dropped when it accepts. -/
def run (p : Machine) (text : Text) (jobs : List Job) (m : Memory) :
    Option (Option Nat × Memory) :=
  match jobs with
  | [] => some (none, m)
  | .restoreSlot slot value :: rest => p |>.run text rest (m.restoreSlot slot value)
  | .restoreRegister r value :: rest => p |>.run text rest (m.restoreRegister r value)
  | .resume pc cursor :: rest => do
    let op ← p.ops[pc]?
    match ← p.execute text m pc cursor op with
    | .accept => some (some cursor, m)
    | .fail => p |>.run text rest m
    | .go pc cursor pushed m => p |>.run text (.resume pc cursor :: (pushed ++ rest)) m
    | .look negated next =>
      let (found, after) ← p |>.run text [.resume (pc + 1) cursor] m
      match found, negated with
      | some _, true => p |>.run text rest { after with slots := m.slots }
      | some _, false =>
        p |>.run text (.resume next cursor :: (m.slots.restore after.slots ++ rest)) after
      | none, true => p |>.run text (.resume next cursor :: rest) after
      | none, false => p |>.run text rest after
partial_fixpoint

/-- Runs the machine at a number of positions until it accepts. Only the captures are unset in
between. -/
def attempts (p : Machine) (text : Text) (start : Nat) : Nat → Array Nat → Option (Option Slots)
  | 0, _ => some none
  | more + 1, registers => do
    let (found, m) ← p.run text [.resume 0 start] ⟨registers, Slots.unset p.groupCount⟩
    match found with
    | some _ => some (some m.slots)
    | none => p.attempts text (start + 1) more m.registers

/-- The match at the first position from `start` on that has one. A sticky pattern only matches at
`start` itself. -/
def find (p : Machine) (text : Text) (start : Nat) : Option SearchResult :=
  if text.size < start then some .noMatch
  else do
    let found ← p.attempts text start (if p.flags.sticky then 1 else text.size - start + 1)
      (Array.replicate p.registers 0)
    match found with
    | some slots => some ⟨slots⟩
    | none => some .noMatch

end Machine

end UnitRegex
