import Mathlib
import UnitRegex.Pattern.Indexing
import UnitRegex.Proofs.Pattern.Linked

/-!
The ids of a pattern that has been read into an arena. The arena is a tree. Its root's parent gets
the id 0, and the other nodes get ids in a row, in the order of a walk that goes down before it goes
on. Ids and nodes determine each other, and ids are given only once.
-/

namespace UnitRegex

/-! ### Walks through an arena -/

/-- A walk from some nodes comes by each of them, then by all below it, and then by the next. -/
inductive Arena.Visits (a : Arena) : List Nat → List Nat → Prop
  | nil : a.Visits [] []
  | cons {slot : Nat} {slots below later : List Nat} (hbelow : a.Visits (a.children slot) below)
      (hlater : a.Visits slots later) : a.Visits (slot :: slots) (slot :: (below ++ later))

namespace Arena.Visits

variable {a : Arena} {slots slots' order order' : List Nat}

theorem append (h : a.Visits slots order) (h' : a.Visits slots' order') :
    a.Visits (slots ++ slots') (order ++ order') := by
  induction h with
  | nil => exact h'
  | cons hbelow _ _ ih =>
    rw [List.cons_append, List.cons_append, List.append_assoc]
    exact .cons hbelow ih

/-- What a walk comes by are the nodes that it starts from and the children of what it comes by. -/
theorem perm (h : a.Visits slots order) : order.Perm (slots ++ order.flatMap a.children) := by
  induction h with
  | nil => exact .nil
  | @cons slot slots below later _ _ ihbelow ihlater =>
    rw [List.cons_append, List.flatMap_cons, List.flatMap_append]
    refine .cons _ ((ihbelow.append ihlater).trans (List.perm_iff_count.mpr fun s => ?_))
    simp only [List.count_append]
    omega

/-- A walk only comes by what can be reached. -/
theorem reaches (h : a.Visits slots order) {slot : Nat} (hslot : slot ∈ order) :
    ∃ start ∈ slots, Relation.ReflTransGen (fun parent child => child ∈ a.children parent)
      start slot := by
  induction h with
  | nil => cases hslot
  | @cons first slots below later _ _ ihbelow ihlater =>
    rcases List.mem_cons.mp hslot with rfl | hslot
    · exact ⟨slot, List.mem_cons_self, .refl⟩
    rcases List.mem_append.mp hslot with hslot | hslot
    · obtain ⟨start, hstart, hreach⟩ := ihbelow hslot
      exact ⟨first, List.mem_cons_self, .head hstart hreach⟩
    · obtain ⟨start, hstart, hreach⟩ := ihlater hslot
      exact ⟨start, List.mem_cons_of_mem _ hstart, hreach⟩

end Arena.Visits

/-! ### Trees and ids -/

/-- Every node but the root's parent is the child of exactly one node, which it knows as its parent,
and can be reached from the root's parent. -/
structure LinkedArena.IsTree (a : LinkedArena) : Prop where
  length_parents : a.parents.length = a.shapes.length
  rootParent : a.parents[a.rootParent]? = some none
  existsUnique_parent : ∀ slot < a.shapes.length, slot ≠ a.rootParent →
    ∃! parent, slot ∈ a.children parent
  nodup_children : ∀ parent, (a.children parent).Nodup
  parent_of_mem_children : ∀ parent, ∀ child ∈ a.children parent,
    a.parents[child]? = some (some parent)
  reachable : ∀ slot < a.shapes.length,
    Relation.ReflTransGen (fun parent child => child ∈ a.children parent) a.rootParent slot

/-- The ids with a meaning of their own besides that of the root's parent. -/
def IdLayout.reserved (l : IdLayout) : List Nat :=
  (List.range (l.context + 1)).map l.anchored ++ (List.range (l.context + 1)).map l.unanchored ++
    [l.loopBack]

/-- The entries of the automaton fill the block behind the id of the root's parent. -/
theorem IdLayout.reserved_eq (l : IdLayout) :
    l.reserved = List.range' 1 (l.context + 1 + (l.context + 1)) ++ [l.loopBack] := by
  have hanchored : (List.range (l.context + 1)).map l.anchored = List.range' 1 (l.context + 1) := by
    rw [List.range_eq_range']
    exact List.map_add_range' 0 (l.context + 1) 1
  have hunanchored : (List.range (l.context + 1)).map l.unanchored =
      List.range' (1 + (l.context + 1)) (l.context + 1) := by
    rw [List.range_eq_range', show 1 + (l.context + 1) = 2 + l.context + 0 by omega]
    exact List.map_add_range' 0 (l.context + 1) 1
  rw [reserved, hanchored, hunanchored, List.range'_append_1]

theorem IdLayout.nodup_reserved (l : IdLayout) : l.reserved.Nodup := by
  rw [l.reserved_eq, List.nodup_append]
  refine ⟨List.nodup_range', by simp, fun id hid last hlast => ?_⟩
  rw [List.mem_range'_1] at hid
  rw [List.mem_singleton.mp hlast]
  simp only [loopBack, size, first]
  omega

/-- The root's parent has the id 0, the nodes below it have the ids from the first one on in the
order of a walk, and every id leads back to its node. -/
structure Arena.Indexed (a : Arena) (n : Numbering) : Prop where
  rootParent : n.id? a.rootParent = some 0
  inOrder : ∃ order, a.Visits (a.children a.rootParent) order ∧
    order.Perm ((List.range a.shapes.length).erase a.rootParent) ∧
    order.map n.id? = (List.range' a.layout.first order.length).map some
  slot?_of_slot : ∀ slot < a.shapes.length, ∃ id, n.id? slot = some id ∧ n.slot? id = some slot
  length_index : n.index.length = a.layout.size
  /-- A reserved id belongs to no node. -/
  reserved : ∀ id, 1 ≤ id ∧ id < a.layout.first ∨ id = a.layout.loopBack →
    n.slot? id = none ∧ ∀ slot, n.id? slot ≠ some id

/-! ### The walk through a pattern -/

namespace Pattern

/-- From some slots on a walk comes by the nodes that stand in a row, which have ids in a row in the
order of the walk. The nodes that it starts from have the same parent. -/
structure Walk (p : Pattern) (parent : Nat) (slots : List Nat) (slot id length : Nat)
    (order : List Nat) : Prop where
  visits : p.arena.Visits slots order
  perm : order.Perm (List.range' slot length)
  ids : order.map (fun s => p.nodes[s]?.map (·.id)) = (List.range' id length).map some
  parents : ∀ s ∈ slots, p.nodes[s]?.map (·.parent) = some (some parent)
  linked : ∀ s ∈ order, ∀ child ∈ p.arena.children s,
    p.nodes[child]?.map (·.parent) = some (some s)

namespace Walk

variable {p : Pattern} {parent slot id length length' : Nat} {slots slots' order order' : List Nat}

theorem nil : p.Walk parent [] slot id 0 [] where
  visits := .nil
  perm := .nil
  ids := rfl
  parents := by simp
  linked := by simp

/-- Neighbours are visited one after the other. -/
theorem append {slot' id' : Nat} (h : p.Walk parent slots slot id length order)
    (h' : p.Walk parent slots' slot' id' length' order') (hslot : slot' = slot + length)
    (hid : id' = id + length) :
    p.Walk parent (slots ++ slots') slot id (length + length') (order ++ order') := by
  subst hslot hid
  exact
    { visits := h.visits.append h'.visits
      perm := by
        rw [← List.range'_append_1]
        exact h.perm.append h'.perm
      ids := by rw [List.map_append, h.ids, h'.ids, ← List.map_append, List.range'_append_1]
      parents := fun s hs => (List.mem_append.mp hs).elim (h.parents s) (h'.parents s)
      linked := fun s hs => (List.mem_append.mp hs).elim (h.linked s) (h'.linked s) }

/-- A walk through the children of a node is the rest of a walk from the node. -/
theorem snoc {slot' : Nat} {n : Node}
    (h : p.Walk slot' n.shape.children slot (n.id + 1) length order)
    (hn : p.nodes[slot']? = some n) (hparent : n.parent = some parent)
    (hslot : slot' = slot + length) :
    p.Walk parent [slot'] slot n.id (length + 1) (slot' :: order) := by
  have hchildren : p.arena.children slot' = n.shape.children := by
    simp [Arena.children, Pattern.arena, hn]
  exact
    { visits := by
        rw [← List.append_nil order]
        exact .cons (hchildren ▸ h.visits) .nil
      perm := by
        rw [List.range'_concat, Nat.one_mul, ← hslot]
        exact (h.perm.cons _).trans (List.perm_append_singleton _ _).symm
      ids := by
        rw [List.map_cons, h.ids, hn, List.range'_succ]
        rfl
      parents := by
        intro s hs
        rw [List.mem_singleton.mp hs, hn, ← hparent]
        rfl
      linked := by
        intro s hs
        rcases List.mem_cons.mp hs with rfl | hs
        · rw [hchildren]
          exact h.parents
        · exact h.linked s hs }

/-- A node without children is a walk of its own. -/
theorem leaf {n : Node} (hn : p.nodes[slot]? = some n) (hchildren : n.shape.children = [])
    (hparent : n.parent = some parent) : p.Walk parent [slot] slot n.id 1 [slot] := by
  have hnil : p.Walk slot n.shape.children slot (n.id + 1) 0 [] := by
    rw [hchildren]
    exact nil
  exact hnil.snoc hn hparent rfl

end Walk

mutual

/-- The nodes of a term in the order of a walk. -/
theorem exists_walk_term (p : Pattern) (t : Term) {slot id parent : Nat}
    (h : StandsAt p.nodes slot (t.nodes slot id parent)) :
    ∃ order, p.Walk parent [slot + t.size - 1] slot id t.size order := by
  match t with
  | .unit _ | .anchor _ | .backReference _ => exact ⟨_, .leaf h.head rfl rfl⟩
  | .group _ _ body =>
    have hrow := h.right
    rw [body.length_nodes] at hrow
    obtain ⟨order, hbody⟩ := p.exists_walk_choice body h.left
    exact ⟨_, hbody.snoc hrow.head rfl rfl⟩
  | .look _ _ body =>
    have hrow := h.right
    rw [body.length_nodes] at hrow
    obtain ⟨order, hbody⟩ := p.exists_walk_choice body h.left
    -- The group of the body and the sentinel behind it are the children of the look-around.
    have hgroup := hbody.snoc hrow.head rfl rfl
    have hending := Walk.leaf hrow.tail.head rfl rfl
    have hboth := hgroup.append hending rfl (by dsimp only; omega)
    exact ⟨_, hboth.snoc hrow.tail.tail.head rfl rfl⟩

theorem exists_walk_branch (p : Pattern) (b : Branch) {slot id parent : Nat}
    (h : StandsAt p.nodes slot (b.nodes slot id parent)) :
    ∃ order, p.Walk parent (b.slots slot) slot id b.size order := by
  match b with
  | .nil => exact ⟨_, .nil⟩
  | .cons t rest =>
    have hrest := h.right
    rw [t.length_nodes] at hrest
    obtain ⟨order, hfirst⟩ := p.exists_walk_term t h.left
    obtain ⟨order', hrest⟩ := p.exists_walk_branch rest hrest
    exact ⟨_, hfirst.append hrest rfl rfl⟩

theorem exists_walk_choice (p : Pattern) (c : Choice) {slot id parent : Nat}
    (h : StandsAt p.nodes slot (c.nodes slot id parent)) :
    ∃ order, p.Walk parent (c.slots slot) slot id c.size order := by
  match c with
  | .one b =>
    have hrow := h.right
    rw [b.length_nodes] at hrow
    obtain ⟨order, hbranch⟩ := p.exists_walk_branch b h.left
    exact ⟨_, hbranch.snoc hrow.head rfl rfl⟩
  | .more b rest =>
    have hrow := h.right
    rw [b.length_nodes] at hrow
    obtain ⟨order, hbranch⟩ := p.exists_walk_branch b h.left
    obtain ⟨order', hrest⟩ := p.exists_walk_choice rest hrow.tail
    exact ⟨_, (hbranch.snoc hrow.head rfl rfl).append hrest rfl rfl⟩

end

/-- The walk from the root's parent comes by all other nodes. -/
theorem exists_walk (p : Pattern) : ∃ order, p.Walk p.rootParentSlot [p.rootSlot, p.root.size] 0
    p.layout.first (p.root.size + 1) order := by
  have hwhole : StandsAt p.nodes 0 p.nodes := ⟨[], [], by simp, rfl⟩
  have hrow := hwhole.right
  rw [p.root.length_nodes, Nat.zero_add] at hrow
  obtain ⟨order, hroot⟩ := p.exists_walk_term p.root hwhole.left
  rw [Nat.zero_add] at hroot
  exact ⟨_, hroot.append (.leaf hrow.head rfl rfl) (Nat.zero_add _).symm rfl⟩

variable {p : Pattern} {order : List Nat}

theorem getElem?_rootParentSlot (p : Pattern) : p.nodes[p.rootParentSlot]? =
    some ⟨.rootParent p.rootSlot p.root.size, none, 0, p.root.nullable, p.root.groupSpan⟩ := by
  rw [p.nodes_eq, List.getElem?_append_right] <;> simp [p.length_innerNodes, rootParentSlot]

theorem parents_linkedArena (p : Pattern) (slot : Nat) :
    p.linkedArena.parents[slot]? = p.nodes[slot]?.map (·.parent) := List.getElem?_map ..

/-- A slot belongs to the root's parent or is on the way of the walk. -/
theorem Walk.eq_or_mem (h : p.Walk p.rootParentSlot [p.rootSlot, p.root.size] 0
    p.layout.first (p.root.size + 1) order) {slot : Nat} (hslot : slot < p.arena.shapes.length) :
    slot = p.rootParentSlot ∨ slot ∈ order := by
  rw [p.length_shapes, p.length_nodes] at hslot
  rw [h.perm.mem_iff, List.mem_range'_1, rootParentSlot]
  simp only [nodeCount] at hslot
  omega

theorem lt_of_mem_children {slot child : Nat} (h : child ∈ p.arena.children slot) :
    slot < p.arena.shapes.length := by
  unfold Arena.children at h
  split at h
  · rename_i shape hshape
    exact (List.getElem?_eq_some_iff.mp hshape).1
  · cases h

/-- A child knows the node that it is a child of. -/
theorem Walk.parent_of_mem_children (h : p.Walk p.rootParentSlot [p.rootSlot, p.root.size] 0
    p.layout.first (p.root.size + 1) order) {slot child : Nat}
    (hchild : child ∈ p.arena.children slot) :
    p.linkedArena.parents[child]? = some (some slot) := by
  rw [p.parents_linkedArena]
  rcases h.eq_or_mem (lt_of_mem_children hchild) with rfl | hslot
  · rw [p.children_rootParent] at hchild
    exact h.parents child hchild
  · exact h.linked slot hslot child hchild

/-- The arena of a pattern is a tree. -/
theorem isTree_linkedArena (p : Pattern) : p.linkedArena.IsTree := by
  obtain ⟨order, hwalk⟩ := p.exists_walk
  have hnodup : ([p.rootSlot, p.root.size] ++ order.flatMap p.arena.children).Nodup :=
    hwalk.visits.perm.nodup_iff.mp (hwalk.perm.nodup_iff.mpr List.nodup_range')
  have hroot : p.linkedArena.parents[p.rootParentSlot]? = some none := by
    rw [p.parents_linkedArena, p.getElem?_rootParentSlot]
    rfl
  exact
    { length_parents := by simp [linkedArena, arena]
      rootParent := hroot
      existsUnique_parent := by
        intro slot hlt hne
        have hparent : ∃ parent, slot ∈ p.arena.children parent := by
          have hmem := hwalk.visits.perm.mem_iff.mp ((hwalk.eq_or_mem hlt).resolve_left hne)
          rcases List.mem_append.mp hmem with hmem | hmem
          · exact ⟨p.rootParentSlot, p.children_rootParent ▸ hmem⟩
          · obtain ⟨parent, -, hmem⟩ := List.mem_flatMap.mp hmem
            exact ⟨parent, hmem⟩
        obtain ⟨parent, hparent⟩ := hparent
        refine ⟨parent, hparent, fun other hother => ?_⟩
        have heq := (hwalk.parent_of_mem_children hother).symm.trans
          (hwalk.parent_of_mem_children hparent)
        simpa using heq
      nodup_children := by
        intro parent
        by_cases hlt : parent < p.arena.shapes.length
        · rcases hwalk.eq_or_mem hlt with rfl | hmem
          · exact p.children_rootParent ▸ (List.nodup_append.mp hnodup).1
          · exact (List.pairwise_flatMap.mp (List.nodup_append.mp hnodup).2.1).1 parent hmem
        · have hnil : p.linkedArena.children parent = [] :=
            List.eq_nil_iff_forall_not_mem.mpr fun child hchild => hlt (lt_of_mem_children hchild)
          rw [hnil]
          exact List.nodup_nil
      parent_of_mem_children := fun parent child hchild => hwalk.parent_of_mem_children hchild
      reachable := by
        intro slot hlt
        rcases hwalk.eq_or_mem hlt with rfl | hmem
        · exact .refl
        · obtain ⟨start, hstart, hreach⟩ := hwalk.visits.reaches hmem
          rw [← p.children_rootParent] at hstart
          exact .head hstart hreach }

end Pattern

/-! ### The index -/

/-- The index leads to nodes at 0 and at some ids from `first` on, and nowhere else. -/
def Numbering.FilledBelow (n : Numbering) (first next : Nat) : Prop :=
  ∀ id slot, n.slot? id = some slot → id = 0 ∨ first ≤ id ∧ id < next

/-- At first the index leads to the root's parent only. -/
theorem Arena.filledBelow_opened (a : Arena) (first : Nat) :
    (a.opened a.unnumbered).FilledBelow first first := by
  intro id slot hslot
  by_cases hid : 0 = id
  · exact .inl hid.symm
  · simp only [Numbering.slot?, Arena.opened, Numbering.give, List.getElem?_set_ne hid,
      List.getElem?_replicate] at hslot
    split at hslot <;> cases hslot

/-- The next id extends the part of the index that is in use. -/
theorem Numbering.FilledBelow.give {n : Numbering} {first next : Nat}
    (h : n.FilledBelow first next) (hle : first ≤ next) (slot : Nat) :
    (n.give slot next).FilledBelow first (next + 1) := by
  intro id slot' hslot
  by_cases hid : next = id
  · exact .inr ⟨hid ▸ hle, hid ▸ Nat.lt_succ_self next⟩
  · simp only [Numbering.slot?, Numbering.give, List.getElem?_set_ne hid] at hslot
    exact (h id slot' hslot).imp_right fun hrange => ⟨hrange.1, Nat.lt_succ_of_lt hrange.2⟩

/-- The walk fills the index from the first id on and stays in front of the last one. -/
theorem Arena.filledBelow_of_numberFrom {a : Arena} {n n' : Numbering} {next : Nat}
    {stack : List Nat} (hrun : a.numberFrom n next stack = .ok n')
    (h : n.FilledBelow a.layout.first next) (hfirst : a.layout.first ≤ next)
    (hroom : next ≤ a.layout.loopBack) :
    n'.FilledBelow a.layout.first a.layout.loopBack ∧ n'.index.length = n.index.length := by
  induction n, next, stack using Arena.numberFrom.induct a with
  | case1 n next =>
    rw [Arena.numberFrom] at hrun
    obtain rfl := Except.ok.inj hrun
    exact ⟨fun id slot hslot => (h id slot hslot).imp_right fun hrange =>
      ⟨hrange.1, Nat.lt_of_lt_of_le hrange.2 hroom⟩, rfl⟩
  | case2 n next slot stack id hid hsentinel ih =>
    rw [Arena.numberFrom, hid] at hrun
    simp only [hsentinel, if_true] at hrun
    exact ih hrun h hfirst hroom
  | case3 n next slot stack id hid hnode =>
    rw [Arena.numberFrom, hid] at hrun
    simp [hnode] at hrun
  | case4 n next slot stack hid hfull =>
    rw [Arena.numberFrom, hid] at hrun
    simp [hfull] at hrun
  | case5 n next slot stack hid hfree ih =>
    rw [Arena.numberFrom, hid] at hrun
    simp only [hfree, if_false] at hrun
    obtain ⟨hfilled, hlength⟩ := ih hrun (h.give hfirst slot) (Nat.le_succ_of_le hfirst)
      (Nat.lt_of_not_le hfree)
    exact ⟨hfilled, hlength.trans (List.length_set ..)⟩

namespace Pattern

variable {p : Pattern} {n : Numbering}

theorem id?_eq (hids : n.ids = idsOf p.nodes) (slot : Nat) :
    n.id? slot = p.nodes[slot]?.map (·.id) := by
  rw [Numbering.id?, hids, idsOf, List.getElem?_map]
  cases p.nodes[slot]? <;> rfl

/-- The ids that the walk gives are those of an indexed arena. -/
theorem indexed_of_number (hrun : p.arena.number p.arena.unnumbered = .ok n)
    (hids : n.ids = idsOf p.nodes)
    (hround : ∀ slot id, n.id? slot = some id → n.slot? id = some slot) : p.arena.Indexed n := by
  obtain ⟨order, hwalk⟩ := p.exists_walk
  have hnodes : p.arena.shapes.length = p.root.size + 1 + 1 := by
    rw [p.length_shapes, p.length_nodes, nodeCount]
  obtain ⟨hfilled, hlength⟩ := Arena.filledBelow_of_numberFrom hrun
    (p.arena.filledBelow_opened p.arena.layout.first) (Nat.le_refl _) (by
      simp only [IdLayout.loopBack, IdLayout.size]
      omega)
  have hvacant : ∀ id, 1 ≤ id ∧ id < p.arena.layout.first ∨ id = p.arena.layout.loopBack →
      n.slot? id = none := by
    intro id hid
    cases hslot : n.slot? id with
    | none => rfl
    | some slot =>
      have hrange := hfilled id slot hslot
      have hlast : 0 < p.arena.layout.loopBack := by
        simp only [IdLayout.loopBack, IdLayout.size, IdLayout.first]
        omega
      omega
  exact
    { rootParent := by
        rw [p.id?_eq hids]
        show p.nodes[p.rootParentSlot]?.map _ = _
        rw [p.getElem?_rootParentSlot]
        rfl
      inOrder := by
        refine ⟨order, ?_, ?_, ?_⟩
        · show p.arena.Visits (p.arena.children p.rootParentSlot) order
          rw [p.children_rootParent]
          exact hwalk.visits
        · rw [hnodes, List.range_succ]
          show order.Perm ((_ ++ [p.root.size + 1]).erase (p.root.size + 1))
          rw [List.erase_append_right _ List.not_mem_range_self, List.range_eq_range']
          simpa using hwalk.perm
        · rw [hwalk.perm.length_eq, List.length_range', p.layout_arena, ← hwalk.ids]
          exact List.map_congr_left fun slot _ => p.id?_eq hids slot
      slot?_of_slot := by
        intro slot hslot
        obtain ⟨id, hid⟩ := p.exists_id hids hslot
        exact ⟨id, hid, hround slot id hid⟩
      length_index := by
        rw [hlength]
        simp [Arena.opened, Numbering.give]
      reserved := by
        intro id hid
        refine ⟨hvacant id hid, fun slot hslot => ?_⟩
        cases (hvacant id hid).symm.trans (hround slot id hslot) }

/-- Ids are given once: the walk stops at the root if the nodes have them already, and leaves
everything as it was. -/
theorem index_again (hids : n.ids = idsOf p.nodes) :
    p.arena.index n = (.error (.alreadyNumbered p.rootSlot p.layout.first), n) := by
  have hkept : (p.arena.opened n).ids = n.ids := by
    apply List.ext_getElem?
    intro slot
    show (n.ids.set p.rootParentSlot (some 0))[slot]? = _
    rw [List.getElem?_set]
    split
    · rename_i hslot
      subst hslot
      have hroot : n.ids[p.rootParentSlot]? = some (some 0) := by
        rw [hids, idsOf, List.getElem?_map, p.getElem?_rootParentSlot]
        rfl
      rw [hroot, if_pos (List.getElem?_eq_some_iff.mp hroot).1]
    · rfl
  have hstack : p.arena.children p.arena.rootParent = [p.rootSlot, p.root.size] :=
    p.children_rootParent
  have hstop : p.arena.giveFrom (p.arena.opened n) p.arena.layout.first
      (p.arena.children p.arena.rootParent) =
      (some (.alreadyNumbered p.rootSlot p.layout.first), p.arena.opened n) := by
    rw [hstack, Arena.giveFrom, p.id?_opened_root hids, p.shape_root]
    rfl
  rw [Arena.index, hstop]
  exact congrArg (fun ids => (Except.error _, Numbering.mk ids n.index)) hkept

end Pattern

/-! ### Main statement -/

/-- The arena that an accepted source is read into is a tree, and its nodes can be given ids, once:
the root's parent gets 0, the others ids in a row in lexical order, all of them lead back to their
nodes, none is reserved for something else, and a second time changes nothing. -/
theorem Source.index_grow {s : Source} {p : Pattern} (h : s.parse = .ok p) :
    ∃ a, s.grow = .ok a ∧ a.IsTree ∧ a.layout.reserved.Nodup ∧
      ∃ n, a.index a.unnumbered = (.ok a.layout, n) ∧ a.Indexed n ∧
        a.index n = (.error (.alreadyNumbered a.root a.layout.first), n) := by
  obtain ⟨n, hnumber, hids, hround⟩ := p.number_arena
  refine ⟨p.linkedArena, ?_, p.isTree_linkedArena, IdLayout.nodup_reserved _, n,
    Arena.index_of_number hnumber, p.indexed_of_number hnumber hids hround, ?_⟩
  · rw [s.grow_eq_linkedArena, h]
    rfl
  · exact p.layout_arena ▸ p.index_again hids

/-- A look-behind with its sentinel, a group that takes its quantifier, and terms that are wrapped
for theirs, one of them a surrogate pair. -/
theorem Source.index_grow_quantified :
    let s : Source := ⟨"(?<=ab)(c|😀*)+?d{2}", {}, {}⟩
    s.parse.isOk = true ∧
      ∃ a, s.grow = .ok a ∧ a.IsTree ∧ a.layout.reserved.Nodup ∧
        ∃ n, a.index a.unnumbered = (.ok a.layout, n) ∧ a.Indexed n ∧
          a.index n = (.error (.alreadyNumbered a.root a.layout.first), n) := by
  intro s
  have hok : s.parse.isOk = true := by cbv
  cases hparse : s.parse with
  | error e => simp [hparse, Except.isOk, Except.toBool] at hok
  | ok p => exact ⟨rfl, s.index_grow hparse⟩

end UnitRegex
