import UnitRegex.Pattern.Arena

/-!
The arena of a pattern. The walk that gives the ids comes by every node once and finds exactly as
many ids as it needs, so it never fails; the ids are those that the tree has by its shape.
-/

namespace UnitRegex

variable {a : Arena} {slot id : Nat}

/-! ### Sizes -/

mutual

theorem Term.length_nodes (t : Term) (slot id parent : Nat) :
    (t.nodes slot id parent).length = t.size := by
  match t with
  | .unit _ | .anchor _ | .backReference _ => rfl
  | .look _ _ body => simp [Term.nodes, Term.size, body.length_nodes]
  | .group _ _ body => simp [Term.nodes, Term.size, body.length_nodes]

theorem Branch.length_nodes (b : Branch) (slot id parent : Nat) :
    (b.nodes slot id parent).length = b.size := by
  match b with
  | .nil => rfl
  | .cons t rest => simp [Branch.nodes, Branch.size, t.length_nodes, rest.length_nodes]

theorem Choice.length_nodes (c : Choice) (slot id parent : Nat) :
    (c.nodes slot id parent).length = c.size := by
  match c with
  | .one b => simp [Choice.nodes, Choice.size, b.length_nodes]
  | .more b rest =>
    simp [Choice.nodes, Choice.size, b.length_nodes, rest.length_nodes]
    omega

end

theorem Pattern.length_nodes (p : Pattern) : p.nodes.length = p.nodeCount + 1 := by
  simp [Pattern.nodes, Pattern.nodeCount, Term.length_nodes]

/-- The reader leaves as many nodes as the layout of the ids has room for. -/
theorem Pattern.layout_arena (p : Pattern) : p.arena.layout = p.layout := by
  simp [Arena.layout, Pattern.arena, Pattern.layout, p.length_nodes]

mutual

theorem Term.any_isBackReference (t : Term) (slot id parent : Nat) :
    (t.nodes slot id parent).any (·.shape.isBackReference) = t.hasBackReference := by
  match t with
  | .unit _ | .anchor _ | .backReference _ => rfl
  | .look _ _ body =>
    simp [Term.nodes, Term.hasBackReference, body.any_isBackReference]
  | .group _ _ body =>
    simp [Term.nodes, Term.hasBackReference, body.any_isBackReference]

theorem Branch.any_isBackReference (b : Branch) (slot id parent : Nat) :
    (b.nodes slot id parent).any (·.shape.isBackReference) = b.hasBackReference := by
  match b with
  | .nil => rfl
  | .cons t rest =>
    simp [Branch.nodes, Branch.hasBackReference, t.any_isBackReference, rest.any_isBackReference]

theorem Choice.any_isBackReference (c : Choice) (slot id parent : Nat) :
    (c.nodes slot id parent).any (·.shape.isBackReference) = c.hasBackReference := by
  match c with
  | .one b =>
    simp [Choice.nodes, Choice.hasBackReference, b.any_isBackReference]
  | .more b rest =>
    simp [Choice.nodes, Choice.hasBackReference, b.any_isBackReference, rest.any_isBackReference]

end

theorem Pattern.hasBackReference_arena (p : Pattern) :
    p.arena.hasBackReference = p.hasBackReference := by
  have hroot : p.root.hasBackReference = p.hasBackReference := rfl
  simp [Arena.hasBackReference, Pattern.arena, Pattern.nodes, List.any_map, Function.comp_def,
    Term.any_isBackReference, hroot]

/-! ### Places of nodes -/

/-- A row stands in another one from a place on. -/
def StandsAt {α : Type} (whole : List α) (slot : Nat) (part : List α) : Prop :=
  ∃ front back, whole = front ++ part ++ back ∧ front.length = slot

namespace StandsAt

variable {α : Type} {whole l r : List α} {x : α}

theorem left (h : StandsAt whole slot (l ++ r)) : StandsAt whole slot l := by
  obtain ⟨front, back, hwhole, hslot⟩ := h
  exact ⟨front, r ++ back, by simp [hwhole], hslot⟩

theorem right (h : StandsAt whole slot (l ++ r)) : StandsAt whole (slot + l.length) r := by
  obtain ⟨front, back, hwhole, hslot⟩ := h
  exact ⟨front ++ l, back, by simp [hwhole], by simp [hslot]⟩

theorem head (h : StandsAt whole slot (x :: l)) : whole[slot]? = some x := by
  obtain ⟨front, back, hwhole, rfl⟩ := h
  simp [hwhole]

theorem tail (h : StandsAt whole slot (x :: l)) : StandsAt whole (slot + 1) l := right (l := [x]) h

theorem ending {front part : List α} (h : front.length = slot) :
    StandsAt (front ++ part) slot part :=
  ⟨front, [], (List.append_nil _).symm, h⟩

end StandsAt

/-- An arena has some nodes from a slot on. -/
def Arena.Holds (a : Arena) (slot : Nat) (nodes : List Node) : Prop :=
  StandsAt a.shapes slot (nodes.map (·.shape))

namespace Arena.Holds

variable {l r : List Node} {n : Node}

theorem left (h : a.Holds slot (l ++ r)) : a.Holds slot l := by
  rw [Holds, List.map_append] at h
  exact StandsAt.left h

theorem right (h : a.Holds slot (l ++ r)) : a.Holds (slot + l.length) r := by
  rw [Holds, List.map_append] at h
  simpa [Holds] using StandsAt.right h

theorem head (h : a.Holds slot (n :: l)) : a.shapes[slot]? = some n.shape := StandsAt.head h

theorem tail (h : a.Holds slot (n :: l)) : a.Holds (slot + 1) l := StandsAt.tail h

end Arena.Holds

theorem Pattern.holds_arena (p : Pattern) : p.arena.Holds 0 p.nodes :=
  ⟨[], [], by simp [Pattern.arena], rfl⟩

/-! ### The walk -/

def idsOf (nodes : List Node) : List (Option Nat) := nodes.map fun n => some n.id

/-- From the slots `slots` on the walk gives some nodes the ids from `id` on, those that they have
by the shape of the tree, and nothing else. -/
def Arena.Numbers (a : Arena) (slots : List Nat) (nodes : List Node) (slot id : Nat) : Prop :=
  ∀ before after index stack, before.length = slot → id + nodes.length ≤ a.layout.loopBack →
    ∃ index', a.numberFrom ⟨before ++ List.replicate nodes.length none ++ after, index⟩ id
        (slots ++ stack) =
      a.numberFrom ⟨before ++ idsOf nodes ++ after, index'⟩ (id + nodes.length) stack

namespace Arena.Numbers

variable {l r : List Node} {n : Node} {s s' : List Nat}

theorem nil : a.Numbers [] [] slot id := by
  intro before after index stack _ _
  exact ⟨index, rfl⟩

/-- Neighbours are numbered one after the other. -/
theorem append {slot' id' : Nat} (hl : a.Numbers s l slot id) (hr : a.Numbers s' r slot' id')
    (hslot : slot' = slot + l.length) (hid : id' = id + l.length) :
    a.Numbers (s ++ s') (l ++ r) slot id := by
  subst hslot hid
  intro before after index stack hbefore hroom
  rw [List.length_append] at hroom
  obtain ⟨index', hleft⟩ := hl before (List.replicate r.length none ++ after) index (s' ++ stack)
    hbefore (by omega)
  obtain ⟨index'', hright⟩ := hr (before ++ idsOf l) after index' stack
    (by simp [idsOf, hbefore]) (by omega)
  refine ⟨index'', ?_⟩
  simp only [List.length_append, ← List.replicate_append_replicate, List.append_assoc, idsOf,
    List.map_append, ← Nat.add_assoc] at hleft hright ⊢
  rw [hleft, hright]

/-- A node is numbered in front of its children, behind which it stands. -/
theorem snoc {slot' : Nat} (hl : a.Numbers n.shape.children l slot (n.id + 1))
    (hn : a.Holds slot' [n]) (hslot : slot' = slot + l.length) :
    a.Numbers [slot'] (l ++ [n]) slot n.id := by
  subst hslot
  have hn := hn.head
  intro before after index stack hbefore hroom
  rw [List.length_append, List.length_singleton] at hroom
  obtain ⟨index', hrest⟩ := hl before (some n.id :: after) (index.set n.id (some (slot + l.length))) stack
    hbefore (by omega)
  refine ⟨index', ?_⟩
  subst hbefore
  have hblank : before ++ List.replicate (l ++ [n]).length none ++ after =
      (before ++ List.replicate l.length none) ++ none :: after := by
    simp [List.replicate_succ']
  have hlength : before.length + l.length = (before ++ List.replicate l.length none).length := by
    simp
  have hfree : Numbering.id? ⟨before ++ List.replicate (l ++ [n]).length none ++ after, index⟩
      (before.length + l.length) = none := by
    rw [hblank, hlength]
    simp [Numbering.id?]
  have hgiven : Numbering.give
      ⟨before ++ List.replicate (l ++ [n]).length none ++ after, index⟩ (before.length + l.length) n.id =
      ⟨before ++ List.replicate l.length none ++ some n.id :: after,
        index.set n.id (some (before.length + l.length))⟩ := by
    rw [Numbering.give, hblank]
    simp only [hlength, List.set_append_right _ _ (Nat.le_refl _), Nat.sub_self, List.set_cons_zero]
  rw [List.cons_append, List.nil_append, Arena.numberFrom, hfree]
  simp only [if_neg (show ¬ a.layout.loopBack ≤ n.id by omega), hgiven, Arena.children, hn]
  rw [hrest]
  simp [idsOf, Nat.add_assoc, Nat.add_comm 1]

end Arena.Numbers

/-- A node without children gets the next id. -/
theorem Arena.numbers_leaf {n : Node} (hn : a.Holds slot [n]) (hchildren : n.shape.children = []) :
    a.Numbers [slot] [n] slot n.id := by
  have hnil : a.Numbers n.shape.children [] slot (n.id + 1) := by
    rw [hchildren]
    exact Arena.Numbers.nil
  exact hnil.snoc hn rfl

mutual

/-- The walk numbers a term from the slot of its own node on, which is its last one. -/
theorem Term.numbers (t : Term) {slot id parent : Nat} (h : a.Holds slot (t.nodes slot id parent)) :
    a.Numbers [slot + t.size - 1] (t.nodes slot id parent) slot id := by
  match t with
  | .unit _ | .anchor _ | .backReference _ => exact Arena.numbers_leaf h rfl
  | .group _ _ body =>
    have hlength := body.length_nodes slot (id + 1) (slot + body.size)
    have hrow := h.right
    rw [hlength] at hrow
    exact (body.numbers h.left).snoc hrow (by rw [hlength]; rfl)
  | .look _ _ body =>
    have hlength := body.length_nodes slot (id + 2) (slot + body.size)
    have hrow := h.right
    rw [hlength] at hrow
    -- The group of the body and the sentinel behind it are the children of the look-around.
    have hgroup := (body.numbers h.left).snoc (hrow.left (l := [_])) (by rw [hlength])
    have hending := Arena.numbers_leaf (hrow.tail.left (l := [_])) rfl
    have hboth := hgroup.append hending (by simp [hlength]; omega) (by simp [hlength]; omega)
    have hlook := hboth.snoc hrow.tail.tail (by simp [hlength]; omega)
    rw [List.append_assoc, List.append_assoc] at hlook
    exact hlook

theorem Branch.numbers (b : Branch) {slot id parent : Nat}
    (h : a.Holds slot (b.nodes slot id parent)) :
    a.Numbers (b.slots slot) (b.nodes slot id parent) slot id := by
  match b with
  | .nil => exact Arena.Numbers.nil
  | .cons t rest =>
    have hlength := t.length_nodes slot id parent
    have hrest := h.right
    rw [hlength] at hrest
    exact (t.numbers h.left).append (rest.numbers hrest) (by rw [hlength]) (by rw [hlength])

theorem Choice.numbers (c : Choice) {slot id parent : Nat}
    (h : a.Holds slot (c.nodes slot id parent)) :
    a.Numbers (c.slots slot) (c.nodes slot id parent) slot id := by
  match c with
  | .one b =>
    have hlength := b.length_nodes slot (id + 1) (slot + b.size)
    have hrow := h.right
    rw [hlength] at hrow
    exact (b.numbers h.left).snoc hrow (by rw [hlength])
  | .more b rest =>
    have hlength := b.length_nodes slot (id + 1) (slot + b.size)
    have hrow := h.right
    rw [hlength] at hrow
    have hbranch := (b.numbers h.left).snoc (hrow.left (l := [_])) (by rw [hlength])
    have hboth := hbranch.append (rest.numbers hrow.tail) (by simp [hlength]; omega)
      (by simp [hlength]; omega)
    rw [List.append_assoc] at hboth
    exact hboth

end

/-! ### The whole pattern -/

/-- Every id leads back to the slot that has it, and the ids from `next` on are free. -/
def Numbering.Consistent (n : Numbering) (next : Nat) : Prop :=
  ∀ slot id, n.id? slot = some id → n.slot? id = some slot ∧ id < next

/-- A fresh id keeps the numbering consistent, whichever node gets it. -/
theorem Numbering.Consistent.give {n : Numbering} {next : Nat} (h : n.Consistent next)
    (hroom : next < n.index.length) (slot : Nat) :
    (n.give slot next).Consistent (next + 1) := by
  intro slot' id hid
  simp only [Numbering.id?, Numbering.give, List.getElem?_set] at hid
  split at hid
  · rename_i heq
    subst heq
    split at hid
    · obtain rfl : next = id := by simpa using hid
      simp [Numbering.slot?, Numbering.give, hroom]
    · cases hid
  · obtain ⟨hslot, hlt⟩ := h slot' id hid
    have hne : next ≠ id := by omega
    refine ⟨?_, by omega⟩
    simpa [Numbering.slot?, Numbering.give, List.getElem?_set_ne hne] using hslot

/-- The walk keeps the numbering consistent, whatever it comes by. -/
theorem Arena.consistent_of_numberFrom {n n' : Numbering} {next : Nat} {stack : List Nat}
    (hrun : a.numberFrom n next stack = .ok n') (h : n.Consistent next)
    (hindex : n.index.length = a.layout.size) : ∃ next', n'.Consistent next' := by
  induction n, next, stack using Arena.numberFrom.induct a with
  | case1 n next =>
    rw [Arena.numberFrom] at hrun
    obtain rfl := Except.ok.inj hrun
    exact ⟨next, h⟩
  | case2 n next slot stack id hid hsentinel ih =>
    rw [Arena.numberFrom, hid] at hrun
    simp only [hsentinel, if_true] at hrun
    exact ih hrun h hindex
  | case3 n next slot stack id hid hnode =>
    rw [Arena.numberFrom, hid] at hrun
    simp [hnode] at hrun
  | case4 n next slot stack hid hfull =>
    rw [Arena.numberFrom, hid] at hrun
    simp [hfull] at hrun
  | case5 n next slot stack hid hroom ih =>
    rw [Arena.numberFrom, hid] at hrun
    simp only [hroom, if_false] at hrun
    have hlt : next < n.index.length := by
      rw [hindex]
      unfold IdLayout.loopBack at hroom
      omega
    exact ih hrun (h.give hlt slot) (by simpa [Numbering.give] using hindex)

theorem Numbering.Consistent.mono {n : Numbering} {next next' : Nat} (h : n.Consistent next)
    (hle : next ≤ next') : n.Consistent next' := by
  intro slot id hid
  obtain ⟨hslot, hlt⟩ := h slot id hid
  exact ⟨hslot, Nat.lt_of_lt_of_le hlt hle⟩

/-- An arena whose nodes have no ids gets them consistently, if it gets them. -/
theorem Arena.slot?_of_number {n n' : Numbering} (hrun : a.number n = .ok n')
    (hfree : ∀ slot, n.id? slot = none) {slot id : Nat} (hid : n'.id? slot = some id) :
    n'.slot? id = some slot := by
  have hnone : Numbering.Consistent ⟨n.ids, List.replicate a.layout.size none⟩ 0 := by
    intro slot id hid
    cases (hfree slot).symm.trans hid
  have hopened : (a.opened n).Consistent 1 := hnone.give (by simp [IdLayout.size]) a.rootParent
  have hfirst : 1 ≤ a.layout.first := by
    unfold IdLayout.first
    omega
  obtain ⟨next, hconsistent⟩ := Arena.consistent_of_numberFrom hrun (hopened.mono hfirst)
    (by simp [Arena.opened, Numbering.give])
  exact (hconsistent slot id hid).1

namespace Pattern

variable (p : Pattern)

/-- The nodes below the root's parent. -/
def innerNodes : List Node :=
  p.root.nodes 0 p.layout.first p.rootParentSlot ++
    [⟨.sentinel, some p.rootParentSlot, p.layout.first + p.root.size, true, none⟩]

theorem length_innerNodes : p.innerNodes.length = p.root.size + 1 := by
  simp [innerNodes, p.root.length_nodes]

theorem nodes_eq : p.nodes = p.innerNodes ++
    [⟨.rootParent p.rootSlot p.root.size, none, 0, p.root.nullable, p.root.groupSpan⟩] := by
  simp [nodes, innerNodes]

theorem numbers_innerNodes :
    p.arena.Numbers [p.rootSlot, p.root.size] p.innerNodes 0 p.layout.first := by
  have hlength := p.root.length_nodes 0 p.layout.first p.rootParentSlot
  have hrow := p.holds_arena.right
  rw [hlength] at hrow
  have hroot := p.root.numbers p.holds_arena.left
  have hending := Arena.numbers_leaf (hrow.left (l := [_])) rfl
  rw [Nat.zero_add] at hroot hending
  exact hroot.append hending (by rw [hlength, Nat.zero_add]) (by rw [hlength])

theorem children_rootParent : p.arena.children p.rootParentSlot = [p.rootSlot, p.root.size] := by
  have hrow := p.holds_arena
  rw [p.nodes_eq] at hrow
  have hshape := hrow.right.head
  rw [p.length_innerNodes, Nat.zero_add] at hshape
  rw [Arena.children, rootParentSlot, hshape]
  rfl

theorem opened_arena : ∃ index, p.arena.opened p.arena.unnumbered =
    ⟨List.replicate (p.root.size + 1) none ++ [some 0], index⟩ := by
  have hlength : p.arena.shapes.length = p.root.size + 1 + 1 := by
    simp [Pattern.arena, p.length_nodes, Pattern.nodeCount]
  have hplace : p.arena.rootParent =
      (List.replicate (p.root.size + 1) (none : Option Nat)).length := by
    rw [List.length_replicate]
    rfl
  have hids : (p.arena.opened p.arena.unnumbered).ids =
      List.replicate (p.root.size + 1) none ++ [some 0] := by
    rw [Arena.opened, Arena.unnumbered, Numbering.give, hlength, List.replicate_succ', hplace,
      List.set_append_right _ _ (Nat.le_refl _), Nat.sub_self, List.set_cons_zero]
  exact ⟨(p.arena.opened p.arena.unnumbered).index, congrArg (Numbering.mk · _) hids⟩

/-- The walk over an arena without ids succeeds. Every node gets the id that it has by the shape of
the tree, and every id leads back to its node. -/
theorem number_arena : ∃ n, p.arena.number p.arena.unnumbered = .ok n ∧
    n.ids = idsOf p.nodes ∧ ∀ slot id, n.id? slot = some id → n.slot? id = some slot := by
  obtain ⟨index, hopened⟩ := p.opened_arena
  -- The ids suffice to the last one.
  have hroom : p.layout.first + p.innerNodes.length ≤ p.arena.layout.loopBack := by
    rw [p.layout_arena, p.length_innerNodes]
    exact Nat.le_refl _
  obtain ⟨index', hwalk⟩ := p.numbers_innerNodes [] [some 0] index [] rfl hroom
  have hrun : p.arena.number p.arena.unnumbered = .ok ⟨idsOf p.nodes, index'⟩ := by
    have hstack : p.arena.children p.arena.rootParent = [p.rootSlot, p.root.size] ++ [] :=
      p.children_rootParent
    rw [p.length_innerNodes, List.nil_append] at hwalk
    rw [Arena.number, hopened, p.layout_arena, hstack, hwalk, Arena.numberFrom, p.nodes_eq]
    simp [idsOf]
  have hfree : ∀ slot, p.arena.unnumbered.id? slot = none := by
    intro slot
    rw [Numbering.id?, Arena.unnumbered, List.getElem?_replicate]
    split <;> rfl
  exact ⟨_, hrun, rfl, fun slot id hid => Arena.slot?_of_number hrun hfree hid⟩

theorem length_shapes : p.arena.shapes.length = p.nodes.length := List.length_map _

theorem shapes_pos : 0 < p.arena.shapes.length := by
  rw [p.length_shapes, p.length_nodes]
  exact Nat.succ_pos _

/-- No node lacks an id. -/
theorem exists_id {n : Numbering} (hids : n.ids = idsOf p.nodes) {slot : Nat}
    (hslot : slot < p.arena.shapes.length) : ∃ id, n.id? slot = some id := by
  rw [p.length_shapes] at hslot
  refine ⟨p.nodes[slot].id, ?_⟩
  simp [Numbering.id?, hids, idsOf, hslot]

/-- The root is the group around the body. -/
theorem shape_root : p.arena.shapes[p.rootSlot]? =
    some (.group (p.body.slots 0) (some 0) none p.body.nullable) := by
  have hshape := p.holds_arena.left.right.head
  rw [p.body.length_nodes, Nat.zero_add] at hshape
  exact hshape

/-- The root keeps its id when the index is emptied. -/
theorem id?_opened_root {n : Numbering} (hids : n.ids = idsOf p.nodes) :
    (p.arena.opened n).id? p.rootSlot = some p.layout.first := by
  have hrow : StandsAt n.ids 0 (idsOf p.nodes) := ⟨[], [], by simp [hids], rfl⟩
  have hroot : n.ids[p.body.size]? = some (some p.layout.first) := by
    rw [nodes_eq, innerNodes, root, Term.nodes, idsOf, List.map_append, List.map_append,
      List.map_append] at hrow
    have hown := hrow.left.left.right.head
    rwa [List.length_map, p.body.length_nodes, Nat.zero_add] at hown
  have hne : p.arena.rootParent ≠ p.rootSlot := Nat.ne_of_gt (Nat.lt_add_of_pos_right Nat.two_pos)
  rw [Arena.opened, Numbering.id?, Numbering.give, List.getElem?_set_ne hne]
  exact congrArg Option.join hroot

end Pattern

end UnitRegex
