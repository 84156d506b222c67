import UnitRegex.Automaton.Build
import UnitRegex.Pattern.Arena

/-!
Construction of an automaton from an arena and the ids of its nodes. Nodes are found by their slots
and compiled by their kind. Only terms and branches can be compiled, and only those with an id.
-/

namespace UnitRegex

/-- Compiles a node in front of a state and gives its entry. -/
abbrev NodeBuild := Nat → Build Nat

namespace BuildPlan

/-- One node after the other, each in front of those that the direction reads after it. -/
def sequence (plan : BuildPlan) (parts : List NodeBuild) : NodeBuild := fun next =>
  match plan.direction with
  | .forward => parts.foldrM (· ·) next
  | .backward => parts.foldlM (fun next part => part next) next

/-- The branches of a group, all in front of the same state. -/
def branches (parts : List NodeBuild) (exit : Nat) : Build (List Nat) := parts.mapM (· exit)

/-- Builds the automaton around a compiled root. -/
def assemble (plan : BuildPlan) (a : Arena) (accepting : Nat) (root : NodeBuild) : Build Nfa := do
  let layout := a.layout
  let accept ← plan.add accepting .accept
  let start ← root accept
  let (anchored, unanchored) ← match plan.direction with
    | .backward => pure ([start], [start])
    | .forward => do
      let search ← if a.flags.sticky then pure start else plan.addSearchLoop layout start
      plan.addEntries layout [start] [search] start search 1 layout.context
  let draft ← get
  return {
    nodes := draft.nodes
    start := start
    anchored := anchored
    unanchored := unanchored
    lookBehinds := draft.lookBehinds
    lookAheads := draft.lookAheads
    counters := draft.counters
    groupCount := a.groupCount
    direction := plan.direction }

end BuildPlan

/-- The id of a node that is used as the origin of states. -/
def Numbering.origin (n : Numbering) (slot : Nat) : Except Breach Nat :=
  match n.id? slot with
  | some id => .ok id
  | none => .error (.withoutId slot)

/-- How a child is compiled. -/
def childBuild (done : List (Except Breach NodeBuild)) (child : Nat) : Except Breach NodeBuild :=
  (done[child]?).getD (.error (.notTerm child))

/-- How the next node is compiled, from how the nodes in front of it are. -/
def NodeShape.compile (plan : BuildPlan) (n : Numbering) (spans : List (Option (Nat × Nat)))
    (done : List (Except Breach NodeBuild)) (shape : NodeShape) : Except Breach NodeBuild := do
  let slot := done.length
  let id ← n.origin slot
  match shape with
  | .branch terms => return plan.sequence (← terms.mapM (childBuild done))
  | .group branches capture repeats nullable =>
    let pass := plan.groupPass id capture (BuildPlan.branches (← branches.mapM (childBuild done)))
    match repeats with
    | none => return pass
    | some q => return plan.repetition id q (spans[slot]?).join nullable pass
  | .unit set => return fun next => plan.add id (.unit set next)
  | .anchor kind => return fun next => plan.anchor id next kind
  | .look true negated _ _ body => return fun next => plan.lookBehind id next negated body
  | .look false negated _ _ body => return fun next => plan.lookAhead id next negated body
  | .backReference _ => return fun _ => BuildPlan.refuse .backReference
  | .rootParent _ _ | .sentinel => throw (.notTerm slot)

namespace Arena

/-- How the nodes are compiled, by their slots. What cannot be compiled only counts if something
refers to it. -/
def compile (a : Arena) (plan : BuildPlan) (n : Numbering) : List (Except Breach NodeBuild) :=
  tabulated (NodeShape.compile plan n a.spans) [] a.shapes

def sentinel? (a : Arena) : Option Nat :=
  match a.shapes[a.rootParent]? with
  | some (.rootParent _ ending) => some ending
  | _ => none

/-- The automaton of an arena with ids. -/
def build (a : Arena) (n : Numbering) (config : Config) (direction : Direction) :
    Except Breach (Except Refusal Nfa) :=
  if n.index.isEmpty then .error .notNumbered
  else if a.hasBackReference then .ok (.error (.unsupported .backReference))
  else if config.maxLookBehind < a.context then .ok (.error (.unsupported (.context a.context)))
  else if direction = .backward ∧ 0 < a.context then
    .ok (.error (.unsupported .backwardLookBehind))
  else
    match a.sentinel? with
    | none => .error .withoutRootParent
    | some ending => do
      let plan : BuildPlan := ⟨config, direction, a.flags.multiline⟩
      let accepting ← n.origin ending
      let root ← childBuild (a.compile plan n) a.root
      return (plan.assemble a accepting root).run' {}

end Arena

end UnitRegex
