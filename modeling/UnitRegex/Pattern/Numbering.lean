import UnitRegex.Automaton.Refusal
import UnitRegex.Pattern.Shape

/-!
Two numberings of the nodes of a pattern. Slots number every node after its children; ids number it
before them, behind a block that is reserved for the entry states of the automaton. The nodes are
the terms and branches of the tree, the group inside every look-around, one sentinel behind each
such group and behind the root, and the parent of the root.
-/

namespace UnitRegex

mutual

/-- Number of nodes of a term. -/
def Term.size : Term → Nat
  | .unit _ | .anchor _ | .backReference _ => 1
  | .look _ _ body => body.size + 3
  | .group _ _ body => body.size + 1

def Branch.size : Branch → Nat
  | .nil => 0
  | .cons t rest => t.size + rest.size

def Choice.size : Choice → Nat
  | .one b => b.size + 1
  | .more b rest => b.size + 1 + rest.size

end

/-- The layout of the ids: the root's parent, one anchored and one unanchored entry for every number
of skipped units up to `context`, the nodes, and the state that loops back to the search. -/
structure IdLayout where
  context : Nat
  nodes : Nat
  deriving DecidableEq

namespace IdLayout

def first (l : IdLayout) : Nat := 3 + 2 * l.context

def size (l : IdLayout) : Nat := l.first + l.nodes + 1

def anchored (_ : IdLayout) (skipped : Nat) : Nat := 1 + skipped

def unanchored (l : IdLayout) (skipped : Nat) : Nat := 2 + l.context + skipped

def loopBack (l : IdLayout) : Nat := l.size - 1

end IdLayout

/-- Number of nodes without the root's parent. -/
def Pattern.nodeCount (p : Pattern) : Nat := p.root.size + 1

def Pattern.layout (p : Pattern) : IdLayout := ⟨p.context, p.nodeCount⟩

/-- A node with its children given by their slots. -/
inductive NodeShape where
  | rootParent (group sentinel : Nat)
  | group (branches : List Nat) (capture : Option Nat) (repeats : Option Quantifier)
      (bodyNullable : Bool)
  | branch (terms : List Nat)
  | unit (set : CharSet)
  | anchor (kind : Anchor)
  | look (behind negated : Bool) (group sentinel : Nat) (body : Choice)
  | backReference (group : Nat)
  | sentinel

structure Node where
  shape : NodeShape
  parent : Option Nat
  id : Nat
  nullable : Bool
  captures : Option (Nat × Nat)

/-- The sentinel that ends the subtree of a node. -/
def Node.sentinel? (n : Node) : Option Nat :=
  match n.shape with
  | .rootParent _ s | .look _ _ _ s _ => some s
  | _ => none

/-- Slots of the terms of a branch whose nodes start at `slot`. -/
def Branch.slots (slot : Nat) : Branch → List Nat
  | .nil => []
  | .cons t rest => (slot + t.size - 1) :: rest.slots (slot + t.size)

/-- Slots of the branches of a choice whose nodes start at `slot`. -/
def Choice.slots (slot : Nat) : Choice → List Nat
  | .one b => [slot + b.size]
  | .more b rest => (slot + b.size) :: rest.slots (slot + b.size + 1)

mutual

/-- The nodes of a term in slot order. They start at `slot` and at `id`. -/
def Term.nodes (slot id parent : Nat) : Term → List Node
  | .unit set => [⟨.unit set, some parent, id, false, none⟩]
  | .anchor kind => [⟨.anchor kind, some parent, id, true, none⟩]
  | .backReference n => [⟨.backReference n, some parent, id, true, none⟩]
  | .look behind negated body =>
    let group := slot + body.size
    body.nodes slot (id + 2) group ++
      [⟨.group (body.slots slot) none none body.nullable, some (group + 2), id + 1,
          body.nullable, body.groupSpan⟩,
        ⟨.sentinel, some (group + 2), id + body.size + 2, true, none⟩,
        ⟨.look behind negated group (group + 1) body, some parent, id, true, body.groupSpan⟩]
  | .group capture repeats body =>
    body.nodes slot (id + 1) (slot + body.size) ++
      [⟨.group (body.slots slot) capture repeats body.nullable, some parent, id,
          (Term.group capture repeats body).nullable,
          (Term.group capture repeats body).groupSpan⟩]

def Branch.nodes (slot id parent : Nat) : Branch → List Node
  | .nil => []
  | .cons t rest =>
    t.nodes slot id parent ++ rest.nodes (slot + t.size) (id + t.size) parent

def Choice.nodes (slot id parent : Nat) : Choice → List Node
  | .one b =>
    b.nodes slot (id + 1) (slot + b.size) ++
      [⟨.branch (b.slots slot), some parent, id, b.nullable, b.groupSpan⟩]
  | .more b rest =>
    b.nodes slot (id + 1) (slot + b.size) ++
      ⟨.branch (b.slots slot), some parent, id, b.nullable, b.groupSpan⟩ ::
        rest.nodes (slot + b.size + 1) (id + b.size + 1) parent

end

namespace Pattern

def rootSlot (p : Pattern) : Nat := p.root.size - 1

def rootParentSlot (p : Pattern) : Nat := p.root.size + 1

/-- All nodes in slot order; the root's parent comes last and has the id 0. -/
def nodes (p : Pattern) : List Node :=
  let first := p.layout.first
  p.root.nodes 0 first p.rootParentSlot ++
    [⟨.sentinel, some p.rootParentSlot, first + p.root.size, true, none⟩,
      ⟨.rootParent p.rootSlot p.root.size, none, 0, p.root.nullable, p.root.groupSpan⟩]

/-- The slot of every id; reserved ids have none. -/
def index (p : Pattern) : Array (Option Nat) :=
  p.nodes.zipIdx.foldl (fun slots n => slots.setIfInBounds n.1.id (some n.2))
    (Array.replicate p.layout.size none)

end Pattern

/-- A pattern whose nodes may have been given their ids. -/
structure NumberedPattern extends Pattern where
  numbered : Bool := false

/-- Gives every node its id, once. -/
def NumberedPattern.number (p : NumberedPattern) : Except Refusal NumberedPattern :=
  if p.numbered then .error (.alreadyNumbered p.rootSlot p.layout.first)
  else .ok { p with numbered := true }

end UnitRegex
