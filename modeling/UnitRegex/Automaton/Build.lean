import UnitRegex.Alphabet.Classes
import UnitRegex.Automaton.Bodies
import UnitRegex.Automaton.Graph
import UnitRegex.Automaton.Refusal
import UnitRegex.Engine.Config
import UnitRegex.Pattern.Numbering

/-!
Construction of an automaton from a numbered pattern. Every term is compiled against the state that
follows it, so states are added from the end of the pattern to its start and only the heads of
loops are completed afterwards.
-/

namespace UnitRegex

/-- What stays fixed during one construction. -/
structure BuildPlan where
  config : Config
  direction : Direction
  multiline : Bool

/-- The automaton under construction. -/
structure Draft where
  nodes : Array LabeledState := #[]
  behinds : Bodies (List CharSet) := ∅
  aheads : Bodies (List (List CharSet)) := ∅
  counters : Nat := 0

namespace Draft

def lookBehinds (draft : Draft) : List (List CharSet) := draft.behinds.toList

def lookAheads (draft : Draft) : List (List (List CharSet)) := draft.aheads.toList

end Draft

abbrev Build := StateT Draft (Except Refusal)

namespace BuildPlan

def captures (plan : BuildPlan) : Bool := plan.direction = .forward

def refuse {α : Type} (c : Construct) : Build α := throw (.unsupported c)

def add (plan : BuildPlan) (origin : Nat) (state : NfaState) : Build Nat := fun draft =>
  let limit := plan.config.maxAutomatonStates
  let id := draft.nodes.size
  if limit ≤ id then .error (.unsupported (.size limit))
  else .ok (id, { draft with nodes := draft.nodes.push ⟨state, origin⟩ })

/-- Replaces a state, which keeps its origin. -/
def put (id : Nat) (state : NfaState) : Build Unit :=
  modify fun draft => { draft with nodes := draft.nodes.modify id ({ · with state := state }) }

def addLookBehind (body : List CharSet) : Build Nat := fun ⟨nodes, behinds, aheads, counters⟩ =>
  let (i, behinds) := behinds.add body
  .ok (i, ⟨nodes, behinds, aheads, counters⟩)

def addLookAhead (body : List (List CharSet)) : Build Nat :=
  fun ⟨nodes, behinds, aheads, counters⟩ =>
    let (i, aheads) := aheads.add body
    .ok (i, ⟨nodes, behinds, aheads, counters⟩)

def newCounter : Build Nat := fun draft =>
  .ok (draft.counters, { draft with counters := draft.counters + 1 })

def anchor (plan : BuildPlan) (origin next : Nat) : Anchor → Build Nat
  | .caret =>
    if plan.multiline then
      match plan.direction with
      | .backward => refuse .backwardCaret
      | .forward => do
        -- No unit in front, or one that ends a line.
        let body ← addLookBehind [CharSet.lineTerminators.complement]
        plan.add origin (.assert (.behind body true) next)
    else plan.add origin (.assert .caret next)
  | .dollar =>
    if plan.multiline then refuse .multilineDollar else plan.add origin (.assert .dollar next)
  | .wordBoundary | .notWordBoundary => refuse .wordBoundary

def lookBehind (plan : BuildPlan) (origin next : Nat) (negated : Bool) (body : Choice) :
    Build Nat :=
  match plan.direction with
  | .backward => refuse .backwardLookBehind
  | .forward =>
    match body.soleSequence? with
    | none => refuse .lookBehindShape
    | some sets => do
      let body ← addLookBehind sets
      plan.add origin (.assert (.behind body negated) next)

/-- Most branches that a look-ahead of an automaton may have. -/
def maxLookAheadBranches : Nat := 32

def lookAhead (plan : BuildPlan) (origin next : Nat) (negated : Bool) (body : Choice) :
    Build Nat :=
  match plan.direction with
  | .backward => refuse .backwardLookAhead
  | .forward =>
    match body.plain? with
    | none => refuse .lookAheadShape
    | some branches =>
      if maxLookAheadBranches < branches.length then refuse (.lookAheadBranches branches.length)
      else
        match branches.find? (plan.config.maxLookAhead < ·.length) with
        | some long => refuse (.lookAheadLength long.length)
        | none => do
          let i ← addLookAhead branches
          plan.add origin (.assert (.ahead i negated) next)

/-- One pass through the branches of a group. `branches` compiles them against the state that
follows the group and gives their entries. -/
def groupPass (plan : BuildPlan) (origin : Nat) (capture : Option Nat)
    (branches : Nat → Build (List Nat)) (next : Nat) : Build Nat := do
  let capture := capture.filter fun _ => plan.captures
  let exit ← match capture with
    | some g => plan.add origin (.save (2 * g + 1) next)
    | none => pure next
  let entry ← match ← branches exit with
    | [entry] => pure entry
    | entries => plan.add origin (.split entries)
  match capture with
  | some g => plan.add origin (.save (2 * g) entry)
  | none => return entry

/-- An iteration of a loop: the captures inside are unset, then comes the body. -/
def iteration (plan : BuildPlan) (origin : Nat) (clear : Option (Nat × Nat))
    (body : Nat → Build Nat) (next : Nat) : Build Nat := do
  let entry ← body next
  match clear with
  | some (lo, hi) => plan.add origin (.unset lo hi entry)
  | none => return entry

/-- Adds a copy of the states from `first` on, with renamed successors. -/
def addCopies (plan : BuildPlan) (rename : Nat → Nat) (first : Nat) : Nat → Build Unit
  | 0 => return
  | count + 1 => do
    match (← get).nodes[first]? with
    | some n => discard <| plan.add n.origin (n.state.mapEpsilon rename)
    | none => pure ()
    addCopies plan rename (first + 1) count

/-- An iteration that fails when it consumes nothing. If the body can match empty, it gets a copy
for the time before the first unit: the exit of the copy leads nowhere, and its units lead into the
ordinary body. -/
def movingIteration (plan : BuildPlan) (origin : Nat) (clear : Option (Nat × Nat))
    (nullable : Bool) (body : Nat → Build Nat) (next : Nat) : Build Nat := do
  let first := (← get).nodes.size
  let entry ← plan.iteration origin clear body next
  if !nullable then return entry
  else
    let last := (← get).nodes.size
    let dead ← plan.add origin (.split [])
    let base := (← get).nodes.size
    let moved (s : Nat) : Nat :=
      if first ≤ s ∧ s < last then s - first + base else if s = next then dead else s
    plan.addCopies moved first (last - first)
    return moved entry

/-- Compiles `count` copies of something, each in front of the one before. -/
def chain (compile : Nat → Build Nat) : Nat → Nat → Build Nat
  | 0, next => return next
  | count + 1, next => do chain compile count (← compile next)

/-- A loop around one copy of the body, with a counter for its iterations. -/
def countedLoop (plan : BuildPlan) (origin : Nat) (q : Quantifier) (clear : Option (Nat × Nat))
    (nullable : Bool) (body : Nat → Build Nat) (next : Nat) : Build Nat := do
  if nullable then refuse (.countedEmptyGroup q.min q.max)
  else
    let counter ← newCounter
    let head ← plan.add origin (.loop counter q.min q.max q.greedy next next)
    let incr ← plan.add origin (.increment counter (q.max.getD q.min) head)
    let entry ← plan.iteration origin clear body incr
    put head (.loop counter q.min q.max q.greedy entry next)
    plan.add origin (.reset counter head)

def ordered (greedy : Bool) (body exit : Nat) : List Nat :=
  if greedy then [body, exit] else [exit, body]

/-- The mandatory iterations, followed by a loop or by nested optional iterations. -/
def unrolledLoop (plan : BuildPlan) (origin : Nat) (q : Quantifier) (clear : Option (Nat × Nat))
    (nullable : Bool) (body : Nat → Build Nat) (next : Nat) : Build Nat := do
  let optional := plan.movingIteration origin clear nullable body
  let rest ← match q.max with
    | none => do
      let head ← plan.add origin (.split [])
      let entry ← optional head
      put head (.split (ordered q.greedy entry next))
      pure head
    | some max =>
      chain (fun t => do plan.add origin (.split (ordered q.greedy (← optional t) next)))
        (max - q.min) next
  chain (plan.iteration origin clear body) q.min rest

def repetition (plan : BuildPlan) (origin : Nat) (q : Quantifier) (clear : Option (Nat × Nat))
    (nullable : Bool) (body : Nat → Build Nat) (next : Nat) : Build Nat :=
  let limit := plan.config.maxUnroll
  let clear := if plan.captures then clear else none
  if limit < q.min || q.max.any (limit < · - q.min) then
    plan.countedLoop origin q clear nullable body next
  else plan.unrolledLoop origin q clear nullable body next

end BuildPlan

mutual

/-- Compiles a term whose node has the given id in front of `next`, and gives its entry. -/
def Term.compile (plan : BuildPlan) (id next : Nat) : Term → Build Nat
  | .unit set => plan.add id (.unit set next)
  | .anchor kind => plan.anchor id next kind
  | .look true negated body => plan.lookBehind id next negated body
  | .look false negated body => plan.lookAhead id next negated body
  | .backReference _ => BuildPlan.refuse .backReference
  | .group capture none body =>
    plan.groupPass id capture (fun exit => body.compile plan (id + 1) exit) next
  | .group capture (some q) body =>
    plan.repetition id q (Term.group capture (some q) body).groupSpan body.nullable
      (plan.groupPass id capture fun exit => body.compile plan (id + 1) exit) next

def Branch.compile (plan : BuildPlan) (id next : Nat) : Branch → Build Nat
  | .nil => return next
  | .cons t rest =>
    match plan.direction with
    | .forward => do t.compile plan id (← rest.compile plan (id + t.size) next)
    | .backward => do rest.compile plan (id + t.size) (← t.compile plan id next)

/-- Compiles every branch in front of the same state and gives their entries. -/
def Choice.compile (plan : BuildPlan) (id next : Nat) : Choice → Build (List Nat)
  | .one b => return [← b.compile plan (id + 1) next]
  | .more b rest => do
    let entry ← b.compile plan (id + 1) next
    return entry :: (← rest.compile plan (id + b.size + 1) next)

end

namespace BuildPlan

/-- Entries for 1, 2, … skipped units; each pair of them skips one unit and goes on as the pair
before. -/
def addEntries (plan : BuildPlan) (layout : IdLayout) (anchored unanchored : List Nat)
    (lastAnchored lastUnanchored skipped : Nat) : Nat → Build (List Nat × List Nat)
  | 0 => return (anchored, unanchored)
  | count + 1 => do
    let a ← plan.add (layout.anchored skipped) (.unit .full lastAnchored)
    let u ← plan.add (layout.unanchored skipped) (.unit .full lastUnanchored)
    addEntries plan layout (anchored ++ [a]) (unanchored ++ [u]) a u (skipped + 1) count

/-- The loop in front of a searching entry: matching here outranks skipping a unit. -/
def addSearchLoop (plan : BuildPlan) (layout : IdLayout) (start : Nat) : Build Nat := do
  let split ← plan.add layout.loopBack (.split [])
  let skip ← plan.add layout.loopBack (.unit .full split)
  put split (.split [start, skip])
  return split

def run (plan : BuildPlan) (p : Pattern) : Build Nfa := do
  let layout := p.layout
  let accept ← plan.add (layout.first + p.root.size) .accept
  let start ← p.root.compile plan layout.first accept
  let (anchored, unanchored) ← match plan.direction with
    | .backward => pure ([start], [start])
    | .forward => do
      let search ← if p.flags.sticky then pure start else plan.addSearchLoop layout start
      plan.addEntries layout [start] [search] start search 1 p.context
  let draft ← get
  return {
    nodes := draft.nodes
    start := start
    anchored := anchored
    unanchored := unanchored
    lookBehinds := draft.lookBehinds
    lookAheads := draft.lookAheads
    counters := draft.counters
    groupCount := p.groupCount
    direction := plan.direction }

end BuildPlan

/-- The automaton of a numbered pattern, unless the pattern or its size rules one out. -/
def Nfa.build (p : NumberedPattern) (config : Config) (direction : Direction) :
    Except Refusal Nfa :=
  if !p.numbered then .error .notNumbered
  else if p.hasBackReference then .error (.unsupported .backReference)
  else if config.maxLookBehind < p.context then .error (.unsupported (.context p.context))
  else if direction = .backward ∧ 0 < p.context then .error (.unsupported .backwardLookBehind)
  else
    let plan : BuildPlan := ⟨config, direction, p.flags.multiline⟩
    (plan.run p.toPattern).run' {}

end UnitRegex
