import UnitRegex.Pattern.Numbering

/-!
A pattern as one row of nodes that refer to each other by slots. Every node stands behind its
children. Ids are given by a walk along the references, which checks that it comes by no node twice
and that the ids suffice.
-/

namespace UnitRegex

/-- Ways in which a row of nodes fails to be a pattern with ids. -/
inductive Breach where
  | alreadyNumbered (slot id : Nat)
  | idOutOfRange (id size : Nat)
  | notNumbered
  | withoutId (slot : Nat)
  | notTerm (slot : Nat)
  | withoutRootParent
  deriving DecidableEq

def Breach.message (b : Breach) : String :=
  "internal invariant violated: " ++
    match b with
    | alreadyNumbered slot id => "node " ++ toString slot ++ " already has id " ++ toString id
    | idOutOfRange id size =>
      "id " ++ toString id ++ " out of range for an index of " ++ toString size
    | notNumbered => "NFA requested for an AST that was never indexed"
    | withoutId slot => "node " ++ toString slot ++ " has no id"
    | notTerm slot => "node " ++ toString slot ++ " cannot be compiled as a term"
    | withoutRootParent => "root parent missing"

namespace NodeShape

/-- The slots of the children in lexical order, sentinels last. -/
def children : NodeShape → List Nat
  | .rootParent inner ending | .look _ _ inner ending _ => [inner, ending]
  | .group branches .. => branches
  | .branch terms => terms
  | .unit _ | .anchor _ | .backReference _ | .sentinel => []

def isSentinel : NodeShape → Bool
  | .sentinel => true
  | _ => false

def isBackReference : NodeShape → Bool
  | .backReference _ => true
  | _ => false

@[simp]
theorem isBackReference_group (branches : List Nat) (capture : Option Nat)
    (repeats : Option Quantifier) (bodyNullable : Bool) :
    (NodeShape.group branches capture repeats bodyNullable).isBackReference = false := rfl

@[simp]
theorem isBackReference_branch (terms : List Nat) :
    (NodeShape.branch terms).isBackReference = false := rfl

@[simp]
theorem isBackReference_look (behind negated : Bool) (inner ending : Nat) (body : Choice) :
    (NodeShape.look behind negated inner ending body).isBackReference = false := rfl

@[simp]
theorem isBackReference_sentinel : NodeShape.sentinel.isBackReference = false := rfl

@[simp]
theorem isBackReference_rootParent (inner ending : Nat) :
    (NodeShape.rootParent inner ending).isBackReference = false := rfl

/-- The number of a capture group. -/
def capture? : NodeShape → Option Nat
  | .group _ capture .. => capture
  | _ => none

end NodeShape

/-- Works out a value for every node from the values of the nodes in front of it. -/
def tabulated {β : Type} (value : List β → NodeShape → β) (done : List β) :
    List NodeShape → List β
  | [] => done
  | shape :: rest => tabulated value (done ++ [value done shape]) rest

/-- The range of the capture numbers of a node, from those of its children. -/
def NodeShape.span (done : List (Option (Nat × Nat))) (shape : NodeShape) : Option (Nat × Nat) :=
  spanHull (shape.capture?.map fun g => (g, g + 1))
    (shape.children.foldr (fun child => spanHull (done[child]?).join) none)

structure Arena where
  shapes : List NodeShape
  root : Nat
  rootParent : Nat
  flags : Flags
  groupCount : Nat
  context : Nat

/-- The ids of the slots and the slots of the ids. -/
structure Numbering where
  ids : List (Option Nat)
  index : List (Option Nat)

namespace Numbering

/-- The id of a slot. -/
def id? (n : Numbering) (slot : Nat) : Option Nat := (n.ids[slot]?).join

/-- The slot of an id. -/
def slot? (n : Numbering) (id : Nat) : Option Nat := (n.index[id]?).join

def give (n : Numbering) (slot id : Nat) : Numbering where
  ids := n.ids.set slot (some id)
  index := n.index.set id (some slot)

end Numbering

namespace Arena

/-- The root's parent has an id of its own. -/
def layout (a : Arena) : IdLayout := ⟨a.context, a.shapes.length - 1⟩

def children (a : Arena) (slot : Nat) : List Nat :=
  match a.shapes[slot]? with
  | some shape => shape.children
  | none => []

/-- No node has an id yet. -/
def unnumbered (a : Arena) : Numbering where
  ids := List.replicate a.shapes.length none
  index := []

/-- Gives ids from `next` on to the nodes on the stack and to all below them, depth first. A
sentinel may come up again. -/
def numberFrom (a : Arena) (n : Numbering) (next : Nat) : List Nat → Except Breach Numbering
  | [] => .ok n
  | slot :: stack =>
    match n.id? slot with
    | some id =>
      if a.shapes[slot]?.any (·.isSentinel) then a.numberFrom n next stack
      else .error (.alreadyNumbered slot id)
    | none =>
      if a.layout.loopBack ≤ next then .error (.idOutOfRange next a.layout.size)
      else a.numberFrom (n.give slot next) (next + 1) (a.children slot ++ stack)
-- The ids run out before the stack can grow without an end.
termination_by stack => (a.layout.loopBack - next, stack.length)

/-- Empties the index and gives the root's parent its id. -/
def opened (a : Arena) (n : Numbering) : Numbering :=
  Numbering.give ⟨n.ids, List.replicate a.layout.size none⟩ a.rootParent 0

/-- Gives every node its id, the root's parent first. -/
def number (a : Arena) (n : Numbering) : Except Breach Numbering :=
  a.numberFrom (a.opened n) a.layout.first (a.children a.rootParent)

/-- The capture numbers below every node, its own included, as half-open ranges. -/
def spans (a : Arena) : List (Option (Nat × Nat)) := tabulated NodeShape.span [] a.shapes

def hasBackReference (a : Arena) : Bool := a.shapes.any (·.isBackReference)

end Arena

namespace Pattern

/-- The nodes of a pattern without their ids. -/
def arena (p : Pattern) : Arena where
  shapes := p.nodes.map (·.shape)
  root := p.rootSlot
  rootParent := p.rootParentSlot
  flags := p.flags
  groupCount := p.groupCount
  context := p.context

end Pattern

end UnitRegex
