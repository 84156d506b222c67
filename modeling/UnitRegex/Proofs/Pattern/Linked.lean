import UnitRegex.Proofs.Pattern.Arena
import UnitRegex.Proofs.Pattern.Growth

/-!
The nodes of a pattern with their parents. Those that are pushed for a tree are the nodes of the
tree, and the last of them waits for its parent.
-/

namespace UnitRegex

open Growth

mutual

/-- The nodes of a term as they stand in an arena from `slot` on. The parent of its own node may be
unknown yet. -/
def Term.linked (slot : Nat) (parent : Option Nat) : Term → List LinkedNode
  | .unit set => [⟨.unit set, parent⟩]
  | .anchor kind => [⟨.anchor kind, parent⟩]
  | .backReference n => [⟨.backReference n, parent⟩]
  | .look behind negated body =>
    let group := slot + body.size
    body.linked slot (some group) ++
      [⟨.group (body.slots slot) none none body.nullable, some (group + 2)⟩,
        ⟨.sentinel, some (group + 2)⟩, ⟨.look behind negated group (group + 1) body, parent⟩]
  | .group capture repeats body =>
    body.linked slot (some (slot + body.size)) ++
      [⟨.group (body.slots slot) capture repeats body.nullable, parent⟩]

/-- The nodes of a branch, whose terms have the same parent. -/
def Branch.linked (slot : Nat) (parent : Option Nat) : Branch → List LinkedNode
  | .nil => []
  | .cons t rest => t.linked slot parent ++ rest.linked (slot + t.size) parent

/-- The nodes of a choice, whose branches have the same parent. -/
def Choice.linked (slot : Nat) (parent : Option Nat) : Choice → List LinkedNode
  | .one b => b.linked slot (some (slot + b.size)) ++ [⟨.branch (b.slots slot), parent⟩]
  | .more b rest =>
    b.linked slot (some (slot + b.size)) ++
      ⟨.branch (b.slots slot), parent⟩ :: rest.linked (slot + b.size + 1) parent

end

/-- A node without what is worked out from the tree. -/
def Node.linked (n : Node) : LinkedNode := ⟨n.shape, n.parent⟩

mutual

theorem Term.map_linked_nodes (t : Term) (slot id parent : Nat) :
    (t.nodes slot id parent).map (·.linked) = t.linked slot (some parent) := by
  match t with
  | .unit _ | .anchor _ | .backReference _ => rfl
  | .look _ _ body =>
    simp only [Term.nodes, Term.linked, List.map_append, body.map_linked_nodes]
    rfl
  | .group _ _ body =>
    simp only [Term.nodes, Term.linked, List.map_append, body.map_linked_nodes]
    rfl

theorem Branch.map_linked_nodes (b : Branch) (slot id parent : Nat) :
    (b.nodes slot id parent).map (·.linked) = b.linked slot (some parent) := by
  match b with
  | .nil => rfl
  | .cons t rest =>
    simp [Branch.nodes, Branch.linked, t.map_linked_nodes, rest.map_linked_nodes]

theorem Choice.map_linked_nodes (c : Choice) (slot id parent : Nat) :
    (c.nodes slot id parent).map (·.linked) = c.linked slot (some parent) := by
  match c with
  | .one b =>
    simp only [Choice.nodes, Choice.linked, List.map_append, b.map_linked_nodes]
    rfl
  | .more b rest =>
    simp only [Choice.nodes, Choice.linked, List.map_append, List.map_cons, b.map_linked_nodes,
      rest.map_linked_nodes]
    rfl

end

mutual

theorem Term.length_linked (t : Term) (slot : Nat) (parent : Option Nat) :
    (t.linked slot parent).length = t.size := by
  match t with
  | .unit _ | .anchor _ | .backReference _ => rfl
  | .look _ _ body => simp [Term.linked, Term.size, body.length_linked]
  | .group _ _ body => simp [Term.linked, Term.size, body.length_linked]

theorem Branch.length_linked (b : Branch) (slot : Nat) (parent : Option Nat) :
    (b.linked slot parent).length = b.size := by
  match b with
  | .nil => rfl
  | .cons t rest => simp [Branch.linked, Branch.size, t.length_linked, rest.length_linked]

theorem Choice.length_linked (c : Choice) (slot : Nat) (parent : Option Nat) :
    (c.linked slot parent).length = c.size := by
  match c with
  | .one b => simp [Choice.linked, Choice.size, b.length_linked]
  | .more b rest =>
    simp [Choice.linked, Choice.size, b.length_linked, rest.length_linked]
    omega

end

/-! ### Naming parents -/

theorem Growth.adopt_middle (front : List LinkedNode) (node : LinkedNode) (back : List LinkedNode)
    (parent : Nat) : adopt parent (front ++ node :: back) front.length =
      front ++ { node with parent := some parent } :: back := by
  induction front with
  | nil => rfl
  | cons first rest ih => exact congrArg (first :: ·) ih

/-- The node of a term comes last among its nodes, and it is the only one that knows the parent. -/
theorem Term.linked_eq (t : Term) (slot : Nat) : ∃ inner shape,
    inner.length + 1 = t.size ∧ ∀ parent, t.linked slot parent = inner ++ [⟨shape, parent⟩] := by
  cases t with
  | unit set => exact ⟨[], .unit set, rfl, fun _ => rfl⟩
  | anchor kind => exact ⟨[], .anchor kind, rfl, fun _ => rfl⟩
  | backReference n => exact ⟨[], .backReference n, rfl, fun _ => rfl⟩
  | group capture repeats body =>
    exact ⟨body.linked slot (some (slot + body.size)), _, by rw [body.length_linked]; rfl,
      fun _ => rfl⟩
  | look behind negated body =>
    refine ⟨body.linked slot (some (slot + body.size)) ++
      [⟨.group (body.slots slot) none none body.nullable, some (slot + body.size + 2)⟩,
        ⟨.sentinel, some (slot + body.size + 2)⟩], _, ?_,
      fun parent => (List.append_assoc _ [_, _] [_]).symm⟩
    simp [body.length_linked, Term.size]

theorem Term.adopt_linked (t : Term) (front back : List LinkedNode) (parent : Nat) :
    adopt parent (front ++ t.linked front.length none ++ back) (front.length + t.size - 1) =
      front ++ t.linked front.length (some parent) ++ back := by
  obtain ⟨inner, shape, hlength, hlinked⟩ := t.linked_eq front.length
  have hslot : front.length + t.size - 1 = (front ++ inner).length := by
    rw [List.length_append]
    omega
  rw [hlinked, hlinked, hslot]
  simpa using adopt_middle (front ++ inner) ⟨shape, none⟩ back parent

theorem Branch.foldl_adopt_linked (b : Branch) (front back : List LinkedNode) (parent : Nat) :
    (b.slots front.length).foldl (adopt parent) (front ++ b.linked front.length none ++ back) =
      front ++ b.linked front.length (some parent) ++ back := by
  match b with
  | .nil => rfl
  | .cons t rest =>
    have hfirst := t.adopt_linked front (rest.linked (front.length + t.size) none ++ back) parent
    have hrest := rest.foldl_adopt_linked (front ++ t.linked front.length (some parent)) back parent
    rw [List.length_append, t.length_linked] at hrest
    simp only [Branch.slots, Branch.linked, List.foldl_cons, List.append_assoc] at hfirst hrest ⊢
    rw [hfirst, hrest]

theorem Choice.foldl_adopt_linked (c : Choice) (front back : List LinkedNode) (parent : Nat) :
    (c.slots front.length).foldl (adopt parent) (front ++ c.linked front.length none ++ back) =
      front ++ c.linked front.length (some parent) ++ back := by
  match c with
  | .one b =>
    have hlast := adopt_middle (front ++ b.linked front.length (some (front.length + b.size)))
      ⟨.branch (b.slots front.length), none⟩ back parent
    rw [List.length_append, b.length_linked] at hlast
    simpa [Choice.slots, Choice.linked] using hlast
  | .more b rest =>
    have hfirst := adopt_middle (front ++ b.linked front.length (some (front.length + b.size)))
      ⟨.branch (b.slots front.length), none⟩
      (rest.linked (front.length + b.size + 1) none ++ back) parent
    rw [List.length_append, b.length_linked] at hfirst
    have hrest := rest.foldl_adopt_linked
      (front ++ b.linked front.length (some (front.length + b.size)) ++
        [⟨.branch (b.slots front.length), some parent⟩]) back parent
    simp only [List.length_append, b.length_linked, List.length_singleton] at hrest
    simp only [Choice.slots, Choice.linked, List.foldl_cons, List.append_assoc,
      List.cons_append, List.nil_append] at hfirst hrest ⊢
    rw [hfirst, hrest]

/-! ### Pushing a tree -/

/-- A node that is pushed behind the terms of a branch becomes their parent. -/
theorem Branch.run_pushLinked (b : Branch) (nodes : List LinkedNode) {shape : NodeShape}
    (h : shape.children = b.slots nodes.length) :
    (pushLinked shape).run (nodes ++ b.linked nodes.length none) = (nodes.length + b.size,
      nodes ++ b.linked nodes.length (some (nodes.length + b.size)) ++ [⟨shape, none⟩]) := by
  rw [Growth.run_pushLinked, h, List.length_append, b.length_linked, b.foldl_adopt_linked]

/-- A node that is pushed behind the branches of a choice becomes their parent. -/
theorem Choice.run_pushLinked (c : Choice) (nodes : List LinkedNode) {shape : NodeShape}
    (h : shape.children = c.slots nodes.length) :
    (pushLinked shape).run (nodes ++ c.linked nodes.length none) = (nodes.length + c.size,
      nodes ++ c.linked nodes.length (some (nodes.length + c.size)) ++ [⟨shape, none⟩]) := by
  rw [Growth.run_pushLinked, h, List.length_append, c.length_linked, c.foldl_adopt_linked]

/-- A node and the sentinel behind it become the children of the next node. -/
theorem Growth.run_pushLinked_ended (nodes : List LinkedNode) (inner shape : NodeShape)
    (h : shape.children = [nodes.length, nodes.length + 1]) :
    (pushLinked shape).run (nodes ++ [⟨inner, none⟩, ⟨.sentinel, none⟩]) = (nodes.length + 2,
      nodes ++ [⟨inner, some (nodes.length + 2)⟩, ⟨.sentinel, some (nodes.length + 2)⟩,
        ⟨shape, none⟩]) := by
  have hinner := adopt_middle nodes ⟨inner, none⟩ [⟨.sentinel, none⟩, ⟨shape, none⟩]
    (nodes.length + 2)
  have hending := adopt_middle (nodes ++ [⟨inner, some (nodes.length + 2)⟩]) ⟨.sentinel, none⟩
    [⟨shape, none⟩] (nodes.length + 2)
  rw [List.length_append, List.length_singleton] at hending
  simp only [List.append_assoc, List.cons_append, List.nil_append] at hinner hending
  simp only [Growth.run_pushLinked, h, List.length_append, List.length_cons, List.length_nil,
    List.foldl_cons, List.foldl_nil, List.append_assoc, List.cons_append, List.nil_append, hinner,
    hending]

theorem Growth.run_bind {α β : Type} (m : Growth α) (f : α → Growth β)
    (nodes : List LinkedNode) :
    (m >>= f).run nodes = (f (m.run nodes).1).run (m.run nodes).2 := rfl

theorem Growth.run_pure {α : Type} (a : α) (nodes : List LinkedNode) :
    (pure a : Growth α).run nodes = (a, nodes) := rfl

theorem Growth.run_push (shape : NodeShape) (nodes : List LinkedNode) :
    (push shape).run nodes = (nodes.length, nodes ++ [⟨shape, none⟩]) := rfl

mutual

/-- Pushing a term leaves its nodes behind those that stood there. -/
theorem Term.run_grow (t : Term) (nodes : List LinkedNode) :
    t.grow.run nodes = (nodes.length + t.size - 1, nodes ++ t.linked nodes.length none) := by
  match t with
  | .unit _ | .anchor _ | .backReference _ => rfl
  | .group capture repeats body =>
    rw [Term.grow, run_bind, body.run_grow, body.run_pushLinked nodes rfl, List.append_assoc]
    rfl
  | .look behind negated body =>
    have hlength (parent : Option Nat) : (nodes ++ body.linked nodes.length parent).length =
        nodes.length + body.size := by
      rw [List.length_append, body.length_linked]
    have hended := Growth.run_pushLinked_ended
      (nodes ++ body.linked nodes.length (some (nodes.length + body.size)))
      (.group (body.slots nodes.length) none none body.nullable)
      (.look behind negated (nodes.length + body.size) (nodes.length + body.size + 1) body)
      (by rw [hlength]; rfl)
    rw [hlength] at hended
    rw [Term.grow, run_bind, body.run_grow, run_bind, body.run_pushLinked nodes rfl, run_bind,
      run_push, List.length_append, hlength, List.append_assoc _ [_] [_]]
    refine hended.trans ?_
    rw [List.append_assoc]
    rfl

theorem Branch.run_grow (b : Branch) (nodes : List LinkedNode) :
    b.grow.run nodes = (b.slots nodes.length, nodes ++ b.linked nodes.length none) := by
  match b with
  | .nil => exact congrArg (Prod.mk _) (List.append_nil nodes).symm
  | .cons t rest =>
    rw [Branch.grow, run_bind, t.run_grow, run_bind, rest.run_grow, run_pure, List.length_append,
      t.length_linked, List.append_assoc]
    rfl

theorem Choice.run_grow (c : Choice) (nodes : List LinkedNode) :
    c.grow.run nodes = (c.slots nodes.length, nodes ++ c.linked nodes.length none) := by
  match c with
  | .one b =>
    rw [Choice.grow, run_bind, b.run_grow, run_bind, b.run_pushLinked nodes rfl, run_pure,
      List.append_assoc]
    rfl
  | .more b rest =>
    rw [Choice.grow, run_bind, b.run_grow, run_bind, b.run_pushLinked nodes rfl, run_bind,
      rest.run_grow, run_pure]
    simp only [List.length_append, b.length_linked, List.length_singleton, List.append_assoc,
      Choice.slots, Choice.linked, List.cons_append, List.nil_append]
    rfl

end

namespace Pattern

variable (p : Pattern)

/-- Growing a whole pattern leaves its nodes, each with its parent. -/
theorem run_growWhole : p.body.growWhole.run [] =
    ((p.rootSlot, p.rootParentSlot), p.nodes.map (·.linked)) := by
  let inner := p.body.linked 0 (some (0 + p.body.size))
  have hlength : inner.length = 0 + p.body.size := by
    rw [p.body.length_linked, Nat.zero_add]
  have hroot : (Term.group (some 0) none p.body).grow.run [] = (inner.length,
      inner ++ [⟨.group (p.body.slots 0) (some 0) none p.body.nullable, none⟩]) := by
    rw [Term.run_grow, hlength]
    rfl
  have hended := Growth.run_pushLinked_ended inner
    (.group (p.body.slots 0) (some 0) none p.body.nullable)
    (.rootParent inner.length (inner.length + 1)) rfl
  have hnodes : p.nodes.map (·.linked) = p.root.linked 0 (some p.rootParentSlot) ++
      [⟨.sentinel, some p.rootParentSlot⟩, ⟨.rootParent p.rootSlot p.root.size, none⟩] := by
    rw [Pattern.nodes, List.map_append, Term.map_linked_nodes]
    rfl
  rw [Choice.growWhole, run_bind, hroot, run_bind, run_push, run_bind, List.length_append,
    List.append_assoc]
  refine (congrArg (fun x => ((inner.length, x.1), x.2)) hended).trans ?_
  rw [hnodes, hlength, Nat.zero_add, Pattern.root, Term.linked, List.append_assoc]
  rfl

/-- The arena of a pattern with the parents of its nodes. -/
def linkedArena : LinkedArena where
  toArena := p.arena
  parents := p.nodes.map (·.parent)

end Pattern

/-- Reading a source into an arena comes to reading it into a tree and laying that out. -/
theorem Source.grow_eq_linkedArena (s : Source) : s.grow = s.parse.map (·.linkedArena) := by
  rw [s.grow_eq]
  congr 1
  funext p
  rw [p.run_growWhole]
  simp [Pattern.linkedArena, Pattern.arena, Node.linked, Function.comp_def]

end UnitRegex
