import UnitRegex.Proofs.Pattern.Passes
import UnitRegex.Proofs.Pattern.Spans

/-!
The numbers of the capture groups in a tree and in its arena. The groups of a pattern that was read
are numbered without gaps in the order of their opening parentheses, so that the groups below any
node have the numbers of one range.
-/

namespace UnitRegex

/-! ### Trees -/

/-- The numbers of the capture groups of a term in the order in which the groups open. -/
def Term.captures (t : Term) : List Nat := t.brackets.filterMap Bracket.opened?

def Branch.captures (b : Branch) : List Nat := b.brackets.filterMap Bracket.opened?

def Choice.captures (c : Choice) : List Nat := c.brackets.filterMap Bracket.opened?

@[simp]
theorem Term.captures_look (behind negated : Bool) (body : Choice) :
    (Term.look behind negated body).captures = body.captures := rfl

@[simp]
theorem Term.captures_group (capture : Option Nat) (repeats : Option Quantifier) (body : Choice) :
    (Term.group capture repeats body).captures = capture.toList ++ body.captures := by
  cases capture with
  | none => rfl
  | some n =>
    simp [Term.captures, Choice.captures, Term.brackets, Bracket.opened?]

@[simp]
theorem Branch.captures_cons (t : Term) (rest : Branch) :
    (Branch.cons t rest).captures = t.captures ++ rest.captures :=
  List.filterMap_append

@[simp]
theorem Choice.captures_one (b : Branch) : (Choice.one b).captures = b.captures := rfl

@[simp]
theorem Choice.captures_more (b : Branch) (rest : Choice) :
    (Choice.more b rest).captures = b.captures ++ rest.captures :=
  List.filterMap_append

/-- The range of `k` numbers from `lo` on, if there are any. -/
def spanOf (lo k : Nat) : Option (Nat × Nat) := if k = 0 then none else some (lo, lo + k)

theorem spanHull_spanOf (lo k k' : Nat) :
    spanHull (spanOf lo k) (spanOf (lo + k) k') = spanOf lo (k + k') := by
  unfold spanOf
  by_cases hk : k = 0
  · simp [hk]
  · by_cases hk' : k' = 0
    · simp [hk, hk']
    · simp [hk, hk', spanHull]
      omega

/-- A range that is cut in two. -/
theorem exists_of_append_eq_range' {l r : List Nat} {lo k : Nat} (h : l ++ r = List.range' lo k) :
    ∃ i j, k = i + j ∧ l = List.range' lo i ∧ r = List.range' (lo + i) j := by
  obtain ⟨i, hi, hl, hr⟩ := List.range'_eq_append_iff.mp h.symm
  rw [Nat.mul_one] at hr
  exact ⟨i, k - i, by omega, hl, hr⟩

theorem spanOf_nil {lo k : Nat} (h : [] = List.range' lo k) : spanOf lo k = none := by
  have hk : 0 = k := by simpa using congrArg List.length h
  rw [spanOf, if_pos hk.symm]

theorem spanOf_toList {capture : Option Nat} {lo k : Nat} (h : capture.toList = List.range' lo k) :
    spanOf lo k = capture.map fun g => (g, g + 1) := by
  cases capture with
  | none => exact spanOf_nil h
  | some g =>
    obtain rfl : 1 = k := by simpa using congrArg List.length h
    obtain rfl : g = lo := by simpa using h
    rfl

theorem Term.groupSpan_group (capture : Option Nat) (repeats : Option Quantifier) (body : Choice) :
    (Term.group capture repeats body).groupSpan =
      spanHull (capture.map fun g => (g, g + 1)) body.groupSpan := by
  cases capture with
  | none => rw [Option.map_none, spanHull_none_left, Term.groupSpan]
  | some n => rfl

mutual

theorem Term.groupSpan_of_captures (t : Term) {lo k : Nat} (h : t.captures = List.range' lo k) :
    t.groupSpan = spanOf lo k := by
  match t with
  | .unit _ | .anchor _ | .backReference _ => exact (spanOf_nil h).symm
  | .look _ _ body => exact body.groupSpan_of_captures h
  | .group capture _ body =>
    rw [Term.captures_group] at h
    obtain ⟨i, j, rfl, hown, hbody⟩ := exists_of_append_eq_range' h
    rw [Term.groupSpan_group, body.groupSpan_of_captures hbody, ← spanOf_toList hown,
      spanHull_spanOf]

theorem Branch.groupSpan_of_captures (b : Branch) {lo k : Nat}
    (h : b.captures = List.range' lo k) : b.groupSpan = spanOf lo k := by
  match b with
  | .nil => exact (spanOf_nil h).symm
  | .cons t rest =>
    rw [Branch.captures_cons] at h
    obtain ⟨i, j, rfl, ht, hrest⟩ := exists_of_append_eq_range' h
    rw [Branch.groupSpan, t.groupSpan_of_captures ht, rest.groupSpan_of_captures hrest,
      spanHull_spanOf]

theorem Choice.groupSpan_of_captures (c : Choice) {lo k : Nat}
    (h : c.captures = List.range' lo k) : c.groupSpan = spanOf lo k := by
  match c with
  | .one b => exact b.groupSpan_of_captures h
  | .more b rest =>
    rw [Choice.captures_more] at h
    obtain ⟨i, j, rfl, hb, hrest⟩ := exists_of_append_eq_range' h
    rw [Choice.groupSpan, b.groupSpan_of_captures hb, rest.groupSpan_of_captures hrest,
      spanHull_spanOf]

end

/-! ### Arenas -/

/-- A capture group with a given number stands at a slot or below it. -/
inductive Arena.Carries (a : Arena) : Nat → Nat → Prop where
  | own {slot g : Nat} {shape : NodeShape} (hshape : a.shapes[slot]? = some shape)
    (hcapture : shape.capture? = some g) : Carries a slot g
  | inside {slot child g : Nat} (hchild : child ∈ a.children slot) (h : Carries a child g) :
    Carries a slot g

variable {a : Arena} {slot id parent g : Nat}

theorem Arena.carries_iff {shape : NodeShape} (h : a.shapes[slot]? = some shape) :
    a.Carries slot g ↔
      g ∈ shape.capture?.toList ∨ ∃ child ∈ shape.children, a.Carries child g := by
  have hchildren : a.children slot = shape.children := by rw [Arena.children, h]
  rw [Option.mem_toList]
  constructor
  · rintro (⟨hshape, hcapture⟩ | ⟨hchild, hbelow⟩)
    · obtain rfl := Option.some.inj (h.symm.trans hshape)
      exact .inl hcapture
    · exact .inr ⟨_, hchildren ▸ hchild, hbelow⟩
  · rintro (hcapture | ⟨child, hchild, hbelow⟩)
    · exact .own h hcapture
    · exact .inside (hchildren ▸ hchild) hbelow

/-- A node that is no capture group carries what its children carry. -/
theorem Arena.carries_iff_children {shape : NodeShape} (h : a.shapes[slot]? = some shape)
    (hcapture : shape.capture? = none) :
    a.Carries slot g ↔ ∃ child ∈ shape.children, a.Carries child g := by
  rw [Arena.carries_iff h, hcapture]
  simp

theorem Arena.not_carries {shape : NodeShape} (h : a.shapes[slot]? = some shape)
    (hcapture : shape.capture? = none) (hchildren : shape.children = []) :
    ¬ a.Carries slot g := by
  rw [Arena.carries_iff_children h hcapture, hchildren]
  simp

mutual

/-- The node of a term carries the capture groups of the term. -/
theorem Term.carries_iff (t : Term) {slot id parent : Nat}
    (h : a.Holds slot (t.nodes slot id parent)) :
    a.Carries (slot + t.size - 1) g ↔ g ∈ t.captures := by
  match t with
  | .unit _ | .anchor _ | .backReference _ =>
    exact iff_of_false (Arena.not_carries h.head rfl rfl) (by simp [Term.captures, Term.brackets])
  | .group capture _ body =>
    have hrow := h.right
    rw [body.length_nodes] at hrow
    have hbranches := body.carries_slots h.left
    rw [Term.size, ← Nat.add_assoc, Nat.add_sub_cancel, Arena.carries_iff hrow.head]
    simp only [NodeShape.capture?, NodeShape.children, hbranches, Term.captures_group,
      List.mem_append]
  | .look behind negated body =>
    have hrow := h.right
    rw [body.length_nodes] at hrow
    have hbranches := body.carries_slots h.left
    have hgroup : a.Carries (slot + body.size) g ↔ g ∈ body.captures :=
      (Arena.carries_iff_children hrow.head rfl).trans hbranches
    have hending : ¬ a.Carries (slot + body.size + 1) g := Arena.not_carries hrow.tail.head rfl rfl
    have hplace : slot + (Term.look behind negated body).size - 1 = slot + body.size + 1 + 1 := by
      rw [Term.size]
      omega
    rw [hplace, Arena.carries_iff_children hrow.tail.tail.head rfl]
    simp [NodeShape.children, hgroup, hending]

theorem Branch.carries_slots (b : Branch) {slot id parent : Nat}
    (h : a.Holds slot (b.nodes slot id parent)) :
    (∃ child ∈ b.slots slot, a.Carries child g) ↔ g ∈ b.captures := by
  match b with
  | .nil => simp [Branch.slots, Branch.captures, Branch.brackets]
  | .cons t rest =>
    have hrest := h.right
    rw [t.length_nodes] at hrest
    simp only [Branch.slots, List.mem_cons, exists_eq_or_imp, t.carries_iff h.left,
      rest.carries_slots hrest, Branch.captures_cons, List.mem_append]

theorem Choice.carries_slots (c : Choice) {slot id parent : Nat}
    (h : a.Holds slot (c.nodes slot id parent)) :
    (∃ child ∈ c.slots slot, a.Carries child g) ↔ g ∈ c.captures := by
  match c with
  | .one b =>
    have hrow := h.right
    rw [b.length_nodes] at hrow
    simp [Choice.slots, Arena.carries_iff_children hrow.head rfl, NodeShape.children,
      b.carries_slots h.left]
  | .more b rest =>
    have hrow := h.right
    rw [b.length_nodes] at hrow
    simp [Choice.slots, Arena.carries_iff_children hrow.head rfl, NodeShape.children,
      b.carries_slots h.left, rest.carries_slots hrow.tail]

end

/-- Some nodes from a slot on have as their ranges the numbers of the groups that they carry. -/
def Arena.Agrees (a : Arena) (slot : Nat) (nodes : List Node) : Prop :=
  ∀ i n, nodes[i]? = some n →
    ∃ lo k, n.captures = spanOf lo k ∧ ∀ g, a.Carries (slot + i) g ↔ g ∈ List.range' lo k

namespace Arena.Agrees

variable {l r : List Node} {n : Node}

theorem nil : a.Agrees slot [] := by
  intro i n hn
  cases hn

theorem append (hl : a.Agrees slot l) (hr : a.Agrees (slot + l.length) r) :
    a.Agrees slot (l ++ r) := by
  intro i n hn
  by_cases hi : i < l.length
  · rw [List.getElem?_append_left hi] at hn
    exact hl i n hn
  · have hle := Nat.le_of_not_lt hi
    rw [List.getElem?_append_right hle] at hn
    have hplace : slot + l.length + (i - l.length) = slot + i := by omega
    exact hplace ▸ hr _ n hn

/-- A node in front of some others. -/
theorem cons {lo k : Nat} (hspan : n.captures = spanOf lo k)
    (hcarries : ∀ g, a.Carries slot g ↔ g ∈ List.range' lo k) (hr : a.Agrees (slot + 1) r) :
    a.Agrees slot (n :: r) := by
  intro i m hm
  cases i with
  | zero =>
    obtain rfl : n = m := by simpa using hm
    exact ⟨lo, k, hspan, hcarries⟩
  | succ i =>
    have hplace : slot + 1 + i = slot + (i + 1) := by omega
    exact hplace ▸ hr i m hm

end Arena.Agrees

mutual

theorem Term.agrees (t : Term) {slot id parent lo k : Nat}
    (h : a.Holds slot (t.nodes slot id parent)) (hrow : t.captures = List.range' lo k) :
    a.Agrees slot (t.nodes slot id parent) := by
  have hspan := t.groupSpan_of_captures hrow
  have hcarries (g : Nat) := hrow ▸ t.carries_iff (g := g) h
  match t with
  | .unit _ | .anchor _ | .backReference _ => exact .cons hspan hcarries .nil
  | .group capture _ body =>
    rw [Term.captures_group] at hrow
    obtain ⟨i, j, -, -, hbody⟩ := exists_of_append_eq_range' hrow
    apply (body.agrees h.left hbody).append
    rw [body.length_nodes]
    exact .cons hspan hcarries .nil
  | .look behind negated body =>
    have hplace : slot + (Term.look behind negated body).size - 1 = slot + body.size + 1 + 1 := by
      rw [Term.size]
      omega
    rw [hplace] at hcarries
    have hnodes := h.right
    rw [body.length_nodes] at hnodes
    apply (body.agrees h.left hrow).append
    rw [body.length_nodes]
    apply Arena.Agrees.cons hspan
    · intro g
      rw [← hrow]
      exact (Arena.carries_iff_children hnodes.head rfl).trans (body.carries_slots h.left)
    · apply Arena.Agrees.cons (@spanOf_nil 0 0 rfl).symm
      · intro g
        exact iff_of_false (Arena.not_carries hnodes.tail.head rfl rfl) List.not_mem_nil
      · exact .cons hspan hcarries .nil

theorem Branch.agrees (b : Branch) {slot id parent lo k : Nat}
    (h : a.Holds slot (b.nodes slot id parent)) (hrow : b.captures = List.range' lo k) :
    a.Agrees slot (b.nodes slot id parent) := by
  match b with
  | .nil => exact .nil
  | .cons t rest =>
    rw [Branch.captures_cons] at hrow
    obtain ⟨i, j, -, ht, hrest⟩ := exists_of_append_eq_range' hrow
    have hnodes := h.right
    rw [t.length_nodes] at hnodes
    apply (t.agrees h.left ht).append
    rw [t.length_nodes]
    exact rest.agrees hnodes hrest

theorem Choice.agrees (c : Choice) {slot id parent lo k : Nat}
    (h : a.Holds slot (c.nodes slot id parent)) (hrow : c.captures = List.range' lo k) :
    a.Agrees slot (c.nodes slot id parent) := by
  match c with
  | .one b =>
    have hnodes := h.right
    rw [b.length_nodes] at hnodes
    apply (b.agrees h.left hrow).append
    rw [b.length_nodes]
    apply Arena.Agrees.cons (b.groupSpan_of_captures hrow) _ .nil
    intro g
    rw [← hrow]
    exact (Arena.carries_iff_children hnodes.head rfl).trans (b.carries_slots h.left)
  | .more b rest =>
    rw [Choice.captures_more] at hrow
    obtain ⟨i, j, -, hb, hrest⟩ := exists_of_append_eq_range' hrow
    have hnodes := h.right
    rw [b.length_nodes] at hnodes
    apply (b.agrees h.left hb).append
    rw [b.length_nodes]
    apply Arena.Agrees.cons (b.groupSpan_of_captures hb) _ (rest.agrees hnodes.tail hrest)
    intro g
    rw [← hb]
    exact (Arena.carries_iff_children hnodes.head rfl).trans (b.carries_slots h.left)

end

/-! ### All nodes -/

/-- What stands at a node without terms below it. -/
def NodeShape.leaf? : NodeShape → Option Leaf
  | .unit set => some (.unit set)
  | .anchor kind => some (.anchor kind)
  | .backReference n => some (.backReference n)
  | .rootParent _ _ | .group .. | .branch _ | .look .. | .sentinel => none

namespace NodeShape

@[simp]
theorem leaf?_rootParent (inner ending : Nat) : (NodeShape.rootParent inner ending).leaf? = none :=
  rfl

@[simp]
theorem leaf?_group (branches : List Nat) (capture : Option Nat) (repeats : Option Quantifier)
    (bodyNullable : Bool) : (NodeShape.group branches capture repeats bodyNullable).leaf? = none :=
  rfl

@[simp]
theorem leaf?_branch (terms : List Nat) : (NodeShape.branch terms).leaf? = none := rfl

@[simp]
theorem leaf?_look (behind negated : Bool) (inner ending : Nat) (body : Choice) :
    (NodeShape.look behind negated inner ending body).leaf? = none := rfl

@[simp]
theorem leaf?_sentinel : NodeShape.sentinel.leaf? = none := rfl

end NodeShape

mutual

theorem Term.perm_captures (t : Term) (slot id parent : Nat) :
    ((t.nodes slot id parent).filterMap (·.shape.capture?)).Perm t.captures := by
  match t with
  | .unit _ | .anchor _ | .backReference _ => exact .nil
  | .group capture _ body =>
    rw [Term.nodes, List.filterMap_append, Term.captures_group]
    refine List.perm_append_comm.trans (.append ?_ (body.perm_captures _ _ _))
    cases capture <;> exact .refl _
  | .look _ _ body =>
    rw [Term.nodes, List.filterMap_append]
    simpa [NodeShape.capture?] using body.perm_captures _ _ _

theorem Branch.perm_captures (b : Branch) (slot id parent : Nat) :
    ((b.nodes slot id parent).filterMap (·.shape.capture?)).Perm b.captures := by
  match b with
  | .nil => exact .nil
  | .cons t rest =>
    rw [Branch.nodes, List.filterMap_append, Branch.captures_cons]
    exact (t.perm_captures _ _ _).append (rest.perm_captures _ _ _)

theorem Choice.perm_captures (c : Choice) (slot id parent : Nat) :
    ((c.nodes slot id parent).filterMap (·.shape.capture?)).Perm c.captures := by
  match c with
  | .one b =>
    rw [Choice.nodes, List.filterMap_append]
    simpa [NodeShape.capture?] using b.perm_captures _ _ _
  | .more b rest =>
    rw [Choice.nodes, List.filterMap_append, Choice.captures_more]
    exact (b.perm_captures _ _ _).append (rest.perm_captures _ _ _)

end

mutual

/-- The leaves of a term stand in its nodes from left to right. -/
theorem Term.leaves_nodes (t : Term) (slot id parent : Nat) :
    (t.nodes slot id parent).filterMap (·.shape.leaf?) = t.leaves := by
  match t with
  | .unit _ | .anchor _ | .backReference _ => rfl
  | .group _ _ body => simp [Term.nodes, Term.leaves, body.leaves_nodes]
  | .look _ _ body => simp [Term.nodes, Term.leaves, body.leaves_nodes]

theorem Branch.leaves_nodes (b : Branch) (slot id parent : Nat) :
    (b.nodes slot id parent).filterMap (·.shape.leaf?) = b.leaves := by
  match b with
  | .nil => rfl
  | .cons t rest => simp [Branch.nodes, Branch.leaves, t.leaves_nodes, rest.leaves_nodes]

theorem Choice.leaves_nodes (c : Choice) (slot id parent : Nat) :
    (c.nodes slot id parent).filterMap (·.shape.leaf?) = c.leaves := by
  match c with
  | .one b => simp [Choice.nodes, Choice.leaves, b.leaves_nodes]
  | .more b rest =>
    simp [Choice.nodes, Choice.leaves, List.filterMap_cons, b.leaves_nodes, rest.leaves_nodes]

end

namespace Pattern

variable (p : Pattern)

theorem captures_root : p.root.captures = 0 :: p.body.captures :=
  Term.captures_group (some 0) none p.body

theorem perm_captures_arena :
    (p.arena.shapes.filterMap NodeShape.capture?).Perm (0 :: p.body.captures) := by
  rw [← p.captures_root, Pattern.arena, List.filterMap_map, Pattern.nodes, List.filterMap_append]
  apply List.Perm.trans _ (p.root.perm_captures 0 p.layout.first p.rootParentSlot)
  exact .of_eq (List.append_nil _)

theorem leaves_arena : p.arena.shapes.filterMap NodeShape.leaf? = p.body.leaves := by
  have hroot : p.root.leaves = p.body.leaves := rfl
  simp [Pattern.arena, Pattern.nodes, List.filterMap_map, Term.leaves_nodes, hroot]

/-- If the groups are numbered without gaps, every node has the range of the groups it carries. -/
theorem agrees_arena {k : Nat} (hrow : p.body.captures = List.range' 1 k) :
    p.arena.Agrees 0 p.nodes := by
  have hroot : p.root.captures = List.range' 0 (k + 1) := by
    rw [captures_root, hrow, List.range'_succ]
  have hnodes := p.holds_arena.right
  have hlength := p.root.length_nodes 0 p.layout.first p.rootParentSlot
  rw [hlength, Nat.zero_add] at hnodes
  have hcarries (g : Nat) := hroot ▸ p.root.carries_iff (g := g) p.holds_arena.left
  apply (p.root.agrees p.holds_arena.left hroot).append
  rw [hlength, Nat.zero_add]
  apply Arena.Agrees.cons (@spanOf_nil 0 0 rfl).symm
  · intro g
    exact iff_of_false (Arena.not_carries hnodes.head rfl rfl) List.not_mem_nil
  · apply Arena.Agrees.cons (p.root.groupSpan_of_captures hroot) _ .nil
    intro g
    rw [Arena.carries_iff_children hnodes.tail.head rfl, ← hcarries]
    have hending : ¬ p.arena.Carries p.root.size g := Arena.not_carries hnodes.head rfl rfl
    simp [NodeShape.children, rootSlot, hending]

end Pattern

end UnitRegex
