import UnitRegex.Proofs.Pattern.Arena

/-!
Tables over an arena. What is worked out node by node, each from its children by their slots, is
what the tree has: here for the ranges of the capture numbers.
-/

namespace UnitRegex

/-! ### Tables -/

section Tables

variable {β : Type} {value : List β → NodeShape → β} {f : Node → β} {slot : Nat} {l r : List Node}

theorem tabulated_append (value : List β → NodeShape → β) (done : List β) (l r : List NodeShape) :
    tabulated value done (l ++ r) = tabulated value (tabulated value done l) r := by
  induction l generalizing done with
  | nil => rfl
  | cons shape l ih => exact ih _

theorem tabulated_eq_append (value : List β → NodeShape → β) (done : List β)
    (shapes : List NodeShape) :
    ∃ more, tabulated value done shapes = done ++ more ∧ more.length = shapes.length := by
  induction shapes generalizing done with
  | nil => exact ⟨[], by simp [tabulated], rfl⟩
  | cons shape rest ih =>
    obtain ⟨more, hmore, hlength⟩ := ih (done ++ [value done shape])
    refine ⟨value done shape :: more, ?_, by simp [hlength]⟩
    rw [tabulated, hmore, List.append_assoc]
    rfl

/-- A table gives some nodes from a slot on the values `f`. -/
def Fills (value : List β → NodeShape → β) (f : Node → β) (slot : Nat) (nodes : List Node) : Prop :=
  ∀ done, done.length = slot →
    tabulated value done (nodes.map (·.shape)) = done ++ nodes.map f

namespace Fills

theorem nil : Fills value f slot [] := by
  intro done _
  simp [tabulated]

theorem append (hl : Fills value f slot l) (hr : Fills value f (slot + l.length) r) :
    Fills value f slot (l ++ r) := by
  intro done hdone
  rw [List.map_append, tabulated_append, hl done hdone, hr _ (by simp [hdone]), List.append_assoc,
    List.map_append]

/-- The value of a node may use those of the nodes in front of it. -/
theorem snoc {n : Node} (hl : Fills value f slot l)
    (hn : ∀ done, done.length = slot → value (done ++ l.map f) n.shape = f n) :
    Fills value f slot (l ++ [n]) := by
  intro done hdone
  rw [List.map_append, tabulated_append, hl done hdone, List.map_append, ← List.append_assoc]
  simp only [List.map_cons, List.map_nil, tabulated, hn done hdone]

end Fills

end Tables

/-! ### Ranges of capture numbers -/

@[simp]
theorem spanHull_none_left (r : Option (Nat × Nat)) : spanHull none r = r := by
  cases r <;> rfl

@[simp]
theorem spanHull_none_right (r : Option (Nat × Nat)) : spanHull r none = r := by
  cases r <;> rfl

/-- The hull of the ranges of some children. -/
def childSpan (table : List (Option (Nat × Nat))) (children : List Nat) : Option (Nat × Nat) :=
  children.foldr (fun child => spanHull (table[child]?).join) none

/-- A sentinel adds nothing to the group in front of it. -/
theorem childSpan_pair {table : List (Option (Nat × Nat))} {i j : Nat} {span : Option (Nat × Nat)}
    (hgroup : table[i]? = some span) (hending : table[j]? = some none) :
    childSpan table [i, j] = span := by
  simp [childSpan, hgroup, hending]

variable {slot id parent : Nat} {table : List (Option (Nat × Nat))}

/-- The own node of a term comes last and has the range of the term. -/
theorem Term.exists_nodes_eq (t : Term) (slot id parent : Nat) :
    ∃ inner n, t.nodes slot id parent = inner ++ [n] ∧ n.captures = t.groupSpan ∧ n.id = id := by
  cases t with
  | unit set => exact ⟨[], _, rfl, rfl, rfl⟩
  | anchor kind => exact ⟨[], _, rfl, rfl, rfl⟩
  | backReference n => exact ⟨[], _, rfl, rfl, rfl⟩
  | group capture repeats body => exact ⟨_, _, rfl, rfl, rfl⟩
  | look behind negated body => exact ⟨_ ++ [_, _], _, (List.append_assoc _ [_, _] [_]).symm, rfl, rfl⟩

theorem Term.captures_own (t : Term)
    (h : StandsAt table slot ((t.nodes slot id parent).map (·.captures))) :
    table[slot + t.size - 1]? = some t.groupSpan := by
  obtain ⟨inner, n, hnodes, hspan, -⟩ := t.exists_nodes_eq slot id parent
  have hlength := t.length_nodes slot id parent
  rw [hnodes, List.length_append, List.length_singleton] at hlength
  rw [hnodes, List.map_append] at h
  have hown : table[slot + inner.length]? = some n.captures := by
    rw [← List.length_map (·.captures)]
    exact h.right.head
  have hplace : slot + t.size - 1 = slot + inner.length := by omega
  rw [hplace, hown, hspan]

theorem Branch.childSpan_slots (b : Branch) {slot id parent : Nat}
    (h : StandsAt table slot ((b.nodes slot id parent).map (·.captures))) :
    childSpan table (b.slots slot) = b.groupSpan := by
  match b with
  | .nil => rfl
  | .cons t rest =>
    rw [Branch.nodes, List.map_append] at h
    have hrest := h.right
    rw [List.length_map, t.length_nodes] at hrest
    have hown : table[slot + t.size - 1]? = some t.groupSpan := t.captures_own h.left
    have htail : childSpan table (rest.slots (slot + t.size)) = rest.groupSpan :=
      rest.childSpan_slots hrest
    rw [Branch.slots, childSpan, List.foldr_cons, hown]
    exact congrArg (spanHull t.groupSpan) htail

theorem Choice.childSpan_slots (c : Choice) {slot id parent : Nat}
    (h : StandsAt table slot ((c.nodes slot id parent).map (·.captures))) :
    childSpan table (c.slots slot) = c.groupSpan := by
  match c with
  | .one b =>
    rw [Choice.nodes, List.map_append] at h
    have hown := h.right.head
    rw [List.length_map, b.length_nodes] at hown
    simp [Choice.slots, childSpan, hown, Choice.groupSpan]
  | .more b rest =>
    rw [Choice.nodes, List.map_append] at h
    have hown := h.right.head
    have hrest := h.right.tail
    rw [List.length_map, b.length_nodes] at hown hrest
    have htail : childSpan table (rest.slots (slot + b.size + 1)) = rest.groupSpan :=
      rest.childSpan_slots hrest
    rw [Choice.slots, childSpan, List.foldr_cons, hown]
    exact congrArg (spanHull b.groupSpan) htail

theorem NodeShape.span_eq (done : List (Option (Nat × Nat))) (shape : NodeShape) :
    shape.span done =
      spanHull (shape.capture?.map fun g => (g, g + 1)) (childSpan done shape.children) := rfl

mutual

theorem Term.fills_spans (t : Term) {slot id parent : Nat} :
    Fills NodeShape.span (·.captures) slot (t.nodes slot id parent) := by
  match t with
  | .unit _ | .anchor _ | .backReference _ => exact Fills.nil.snoc fun _ _ => rfl
  | .group capture repeats body =>
    apply body.fills_spans.snoc
    intro done hdone
    simp only [NodeShape.span_eq, NodeShape.children, body.childSpan_slots (.ending hdone)]
    cases capture <;> simp [NodeShape.capture?, Term.groupSpan]
  | .look behind negated body =>
    rw [Term.nodes, List.append_cons, List.append_cons (_ ++ _)]
    refine ((body.fills_spans.snoc ?_).snoc fun _ _ => rfl).snoc ?_
    · intro done hdone
      simp only [NodeShape.span_eq, NodeShape.children, body.childSpan_slots (.ending hdone)]
      rfl
    · intro done hdone
      have hlength := body.length_nodes slot (id + 2) (slot + body.size)
      generalize body.nodes slot (id + 2) (slot + body.size) = nodes at hlength
      have hrow : StandsAt (done ++ (nodes.map (·.captures) ++ [body.groupSpan, none])) slot
          (nodes.map (·.captures) ++ [body.groupSpan, none]) := .ending hdone
      have hgroup := hrow.right.head
      have hending := hrow.right.tail.head
      rw [List.length_map, hlength] at hgroup hending
      simp [NodeShape.span_eq, NodeShape.children, NodeShape.capture?, childSpan_pair hgroup hending]

theorem Branch.fills_spans (b : Branch) {slot id parent : Nat} :
    Fills NodeShape.span (·.captures) slot (b.nodes slot id parent) := by
  match b with
  | .nil => exact Fills.nil
  | .cons t rest =>
    apply t.fills_spans.append
    rw [t.length_nodes]
    exact rest.fills_spans

theorem Choice.fills_spans (c : Choice) {slot id parent : Nat} :
    Fills NodeShape.span (·.captures) slot (c.nodes slot id parent) := by
  match c with
  | .one b =>
    apply b.fills_spans.snoc
    intro done hdone
    simp only [NodeShape.span_eq, NodeShape.children, b.childSpan_slots (.ending hdone)]
    rfl
  | .more b rest =>
    rw [Choice.nodes, List.append_cons]
    apply (b.fills_spans.snoc ?_).append
    · rw [List.length_append, b.length_nodes]
      exact rest.fills_spans
    · intro done hdone
      simp only [NodeShape.span_eq, NodeShape.children, b.childSpan_slots (.ending hdone)]
      rfl

end

/-- The ranges of capture numbers that are worked out by slots are those of the tree. -/
theorem Pattern.spans_arena (p : Pattern) : p.arena.spans = p.nodes.map (·.captures) := by
  have hroot : Fills NodeShape.span (·.captures) 0 p.innerNodes :=
    (p.root.fills_spans).snoc fun _ _ => rfl
  have hall : Fills NodeShape.span (·.captures) 0 p.nodes := by
    rw [p.nodes_eq]
    apply hroot.snoc
    intro done hdone
    obtain rfl := List.length_eq_zero_iff.mp hdone
    have hrow : StandsAt ([] ++ p.innerNodes.map (·.captures)) 0 (p.innerNodes.map (·.captures)) :=
      .ending rfl
    rw [List.nil_append, innerNodes, List.map_append] at hrow
    have hgroup := p.root.captures_own hrow.left
    have hending := hrow.right.head
    rw [List.length_map, p.root.length_nodes] at hending
    rw [Nat.zero_add] at hgroup hending
    rw [List.nil_append, NodeShape.span_eq, innerNodes, List.map_append]
    simp only [NodeShape.children, NodeShape.capture?, Option.map_none, spanHull_none_left]
    exact childSpan_pair hgroup hending
  exact hall [] rfl

end UnitRegex
