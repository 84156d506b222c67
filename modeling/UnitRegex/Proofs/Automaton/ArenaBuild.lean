import UnitRegex.Automaton.ArenaBuild
import UnitRegex.Proofs.Pattern.Spans

/-!
An automaton is the same whether it is built from the tree or from the arena. No node that is
compiled lacks an id, and none of them is a sentinel or the root's parent.
-/

namespace UnitRegex

variable {plan : BuildPlan} {n : Numbering} {spans : List (Option (Nat × Nat))}
  {slot id parent : Nat}

theorem Numbering.origin_of_standsAt {node : Node} {rest : List Node}
    (h : StandsAt n.ids slot (idsOf (node :: rest))) : n.origin slot = .ok node.id := by
  have hid : n.ids[slot]? = some (some node.id) := h.head
  simp [origin, id?, hid]

theorem idsOf_append (l r : List Node) : idsOf (l ++ r) = idsOf l ++ idsOf r := List.map_append

theorem length_idsOf (l : List Node) : (idsOf l).length = l.length := List.length_map _

section Nodes

variable {done : List (Except Breach NodeBuild)} {parts : List NodeBuild}

/-- The entry of a child that is known. -/
theorem childBuild_of_length (front : List (Except Breach NodeBuild))
    (build : Except Breach NodeBuild) (back : List (Except Breach NodeBuild)) {child : Nat}
    (h : front.length = child) : childBuild (front ++ [build] ++ back) child = build := by
  subst h
  simp [childBuild]

theorem NodeShape.compile_unit (h : n.origin done.length = .ok id) (set : CharSet) :
    (NodeShape.unit set).compile plan n spans done =
      .ok fun next => Term.compile plan id next (.unit set) := by
  rw [compile, h]
  rfl

theorem NodeShape.compile_anchor (h : n.origin done.length = .ok id) (kind : Anchor) :
    (NodeShape.anchor kind).compile plan n spans done =
      .ok fun next => Term.compile plan id next (.anchor kind) := by
  rw [compile, h]
  rfl

theorem NodeShape.compile_backReference (h : n.origin done.length = .ok id) (group : Nat) :
    (NodeShape.backReference group).compile plan n spans done =
      .ok fun next => Term.compile plan id next (.backReference group) := by
  rw [compile, h]
  rfl

theorem NodeShape.compile_look (h : n.origin done.length = .ok id) (behind negated : Bool)
    (inner ending : Nat) (body : Choice) :
    (NodeShape.look behind negated inner ending body).compile plan n spans done =
      .ok fun next => Term.compile plan id next (.look behind negated body) := by
  cases behind <;> rw [compile, h] <;> rfl

theorem NodeShape.compile_branch {terms : List Nat} (h : n.origin done.length = .ok id)
    (hparts : terms.mapM (childBuild done) = .ok parts) :
    (NodeShape.branch terms).compile plan n spans done = .ok (plan.sequence parts) := by
  rw [compile, h]
  exact congrArg (· >>= fun parts => pure (plan.sequence parts)) hparts

theorem NodeShape.compile_group {branches : List Nat} {capture : Option Nat}
    {repeats : Option Quantifier} {body : Choice} (h : n.origin done.length = .ok id)
    (hspan : (spans[done.length]?).join = (Term.group capture repeats body).groupSpan)
    (hparts : branches.mapM (childBuild done) = .ok parts)
    (hbody : BuildPlan.branches parts = fun exit => body.compile plan (id + 1) exit) :
    (NodeShape.group branches capture repeats body.nullable).compile plan n spans done =
      .ok fun next => Term.compile plan id next (.group capture repeats body) := by
  cases repeats with
  | none =>
    have hpass : (NodeShape.group branches capture none body.nullable).compile plan n spans done =
        .ok (plan.groupPass id capture (BuildPlan.branches parts)) := by
      rw [compile, h]
      exact congrArg (· >>= fun parts =>
        pure (plan.groupPass id capture (BuildPlan.branches parts))) hparts
    rw [hpass, hbody]
    rfl
  | some q =>
    have hloop : (NodeShape.group branches capture (some q) body.nullable).compile plan n spans done =
        .ok (plan.repetition id q (spans[done.length]?).join body.nullable
          (plan.groupPass id capture (BuildPlan.branches parts))) := by
      rw [compile, h]
      exact congrArg (· >>= fun parts =>
        pure (plan.repetition id q (spans[done.length]?).join body.nullable
          (plan.groupPass id capture (BuildPlan.branches parts)))) hparts
    rw [hloop, hbody, hspan]
    rfl

/-- A further entry does not change those in front of it. -/
theorem tabulated_concat (shapes : List NodeShape) (shape : NodeShape) :
    tabulated (NodeShape.compile plan n spans) done (shapes ++ [shape]) =
      tabulated (NodeShape.compile plan n spans) done shapes ++
        [shape.compile plan n spans (tabulated (NodeShape.compile plan n spans) done shapes)] := by
  rw [tabulated_append]
  rfl

theorem sequence_nil (plan : BuildPlan) : plan.sequence [] = fun next => pure next := by
  funext next
  unfold BuildPlan.sequence
  split <;> rfl

theorem sequence_cons (part : NodeBuild) (parts : List NodeBuild) :
    plan.sequence (part :: parts) = fun next =>
      match plan.direction with
      | .forward => plan.sequence parts next >>= part
      | .backward => part next >>= fun next => plan.sequence parts next := by
  funext next
  cases hplan : plan.direction with
  | forward => simp only [BuildPlan.sequence, hplan, List.foldrM_cons]
  | backward => simp only [BuildPlan.sequence, hplan, List.foldlM_cons]

theorem branches_cons (part : NodeBuild) (parts : List NodeBuild) :
    BuildPlan.branches (part :: parts) = fun exit =>
      part exit >>= fun entry => (entry :: ·) <$> BuildPlan.branches parts exit := by
  funext exit
  simp [BuildPlan.branches]

theorem mapM_childBuild_cons {child : Nat} {children : List Nat} {part : NodeBuild}
    (hpart : childBuild done child = .ok part)
    (hparts : children.mapM (childBuild done) = .ok parts) :
    (child :: children).mapM (childBuild done) = .ok (part :: parts) := by
  rw [List.mapM_cons, hpart, hparts]
  rfl

end Nodes

/-- Nodes with their ids, and the ranges of their capture numbers, from a slot on. -/
structure Numbered (n : Numbering) (spans : List (Option (Nat × Nat))) (slot : Nat)
    (nodes : List Node) : Prop where
  ids : StandsAt n.ids slot (idsOf nodes)
  spans : StandsAt spans slot (nodes.map (·.captures))

namespace Numbered

variable {l r : List Node} {node : Node}

theorem left (h : Numbered n spans slot (l ++ r)) : Numbered n spans slot l := by
  obtain ⟨hids, hspans⟩ := h
  rw [idsOf_append] at hids
  rw [List.map_append] at hspans
  exact ⟨hids.left, hspans.left⟩

theorem right (h : Numbered n spans slot (l ++ r)) : Numbered n spans (slot + l.length) r := by
  obtain ⟨hids, hspans⟩ := h
  rw [idsOf_append] at hids
  rw [List.map_append] at hspans
  have hids := hids.right
  have hspans := hspans.right
  rw [length_idsOf] at hids
  rw [List.length_map] at hspans
  exact ⟨hids, hspans⟩

theorem tail (h : Numbered n spans slot (node :: l)) : Numbered n spans (slot + 1) l :=
  ⟨h.ids.tail, h.spans.tail⟩

theorem origin (h : Numbered n spans slot (node :: l)) : n.origin slot = .ok node.id :=
  Numbering.origin_of_standsAt h.ids

theorem span (h : Numbered n spans slot (node :: l)) : (spans[slot]?).join = node.captures := by
  rw [h.spans.head]
  rfl

end Numbered

mutual

/-- The last entry for the nodes of a term compiles the term. -/
theorem Term.tabulated_compile (t : Term) {slot id parent : Nat}
    (h : Numbered n spans slot (t.nodes slot id parent)) {done : List (Except Breach NodeBuild)}
    (hdone : done.length = slot) :
    ∃ inner, tabulated (NodeShape.compile plan n spans) done
        ((t.nodes slot id parent).map (·.shape)) =
          done ++ inner ++ [.ok fun next => t.compile plan id next] ∧
      inner.length + 1 = t.size := by
  subst hdone
  match t with
  | .unit set =>
    refine ⟨[], ?_, rfl⟩
    rw [List.append_nil, ← NodeShape.compile_unit h.origin]
    rfl
  | .anchor kind =>
    refine ⟨[], ?_, rfl⟩
    rw [List.append_nil, ← NodeShape.compile_anchor h.origin]
    rfl
  | .backReference _ =>
    refine ⟨[], ?_, rfl⟩
    rw [List.append_nil, ← NodeShape.compile_backReference h.origin]
    rfl
  | .group capture repeats body =>
    obtain ⟨inner, parts, hinner, hlength, hbody, hparts⟩ := body.tabulated_compile h.left rfl
    have hown := h.right
    rw [body.length_nodes, ← hlength, ← List.length_append] at hown
    refine ⟨inner, ?_, by rw [hlength]; rfl⟩
    rw [Term.nodes, List.map_append, List.map_singleton, tabulated_concat, hinner,
      NodeShape.compile_group hown.origin hown.span (by simpa using hparts []) hbody]
  | .look behind negated body =>
    obtain ⟨inner, parts, hinner, hlength, -⟩ := body.tabulated_compile h.left rfl
    have hown := h.right.tail.tail.origin
    rw [body.length_nodes, ← hlength] at hown
    -- The entries of the group and of the sentinel do not matter: nothing but the look-around
    -- refers to them, and that is compiled from the tree of its body.
    have hshapes : ((Term.look behind negated body).nodes done.length id parent).map (·.shape) =
        (body.nodes done.length (id + 2) (done.length + body.size)).map (·.shape) ++
          [.group (body.slots done.length) none none body.nullable] ++ [.sentinel] ++
          [.look behind negated (done.length + body.size) (done.length + body.size + 1) body] := by
      simp [Term.nodes]
    rw [hshapes, tabulated_concat, tabulated_concat, tabulated_concat, hinner,
      NodeShape.compile_look (by simpa [Nat.add_assoc] using hown)]
    exact ⟨inner ++ [_] ++ [_], by rw [← List.append_assoc, ← List.append_assoc],
      by simp [Term.size, hlength]⟩

/-- The entries for the terms of a branch, one after the other, compile the branch. -/
theorem Branch.tabulated_compile (b : Branch) {slot id parent : Nat}
    (h : Numbered n spans slot (b.nodes slot id parent)) {done : List (Except Breach NodeBuild)}
    (hdone : done.length = slot) :
    ∃ inner parts, tabulated (NodeShape.compile plan n spans) done
        ((b.nodes slot id parent).map (·.shape)) = done ++ inner ∧
      inner.length = b.size ∧ plan.sequence parts = (fun next => b.compile plan id next) ∧
      ∀ after, (b.slots slot).mapM (childBuild (done ++ inner ++ after)) = .ok parts := by
  subst hdone
  match b with
  | .nil =>
    exact ⟨[], [], by simp [Branch.nodes, tabulated], rfl, sequence_nil plan, fun _ => rfl⟩
  | .cons t rest =>
    obtain ⟨inner, hinner, hlength⟩ := t.tabulated_compile h.left rfl
    have hnext := h.right
    rw [t.length_nodes] at hnext
    have hplace : (done ++ inner ++ [Except.ok fun next => t.compile plan id next]).length =
        done.length + t.size := by
      rw [List.length_append, List.length_append, List.length_singleton]
      omega
    obtain ⟨more, parts, hmore, hrest, hparts, hfind⟩ := rest.tabulated_compile hnext hplace
    refine ⟨inner ++ [.ok fun next => t.compile plan id next] ++ more,
      (fun next => t.compile plan id next) :: parts, ?_, ?_, ?_, ?_⟩
    · rw [Branch.nodes, List.map_append, tabulated_append, hinner, hmore]
      simp only [List.append_assoc]
    · simp only [Branch.size, List.length_append, List.length_singleton, hlength, hrest]
    · rw [sequence_cons, hparts]
      rfl
    · intro after
      have hslot : (done ++ inner).length = done.length + t.size - 1 := by
        rw [List.length_append]
        omega
      have hown := childBuild_of_length (done ++ inner) (.ok fun next => t.compile plan id next)
        (more ++ after) hslot
      apply mapM_childBuild_cons
      · simpa only [List.append_assoc] using hown
      · simpa only [List.append_assoc] using hfind after

/-- The entries for the branches of a choice compile the choice. -/
theorem Choice.tabulated_compile (c : Choice) {slot id parent : Nat}
    (h : Numbered n spans slot (c.nodes slot id parent)) {done : List (Except Breach NodeBuild)}
    (hdone : done.length = slot) :
    ∃ inner parts, tabulated (NodeShape.compile plan n spans) done
        ((c.nodes slot id parent).map (·.shape)) = done ++ inner ∧
      inner.length = c.size ∧
      BuildPlan.branches parts = (fun exit => c.compile plan id exit) ∧
      ∀ after, (c.slots slot).mapM (childBuild (done ++ inner ++ after)) = .ok parts := by
  subst hdone
  match c with
  | .one b =>
    obtain ⟨inner, parts, hinner, hlength, hb, hparts⟩ := b.tabulated_compile h.left rfl
    have hown := h.right
    rw [b.length_nodes, ← hlength, ← List.length_append] at hown
    refine ⟨inner ++ [.ok (plan.sequence parts)], [plan.sequence parts], ?_, ?_, ?_, ?_⟩
    · rw [Choice.nodes, List.map_append, List.map_singleton, tabulated_concat, hinner,
        NodeShape.compile_branch hown.origin (by simpa using hparts []), List.append_assoc]
    · simp [Choice.size, hlength]
    · rw [branches_cons, hb]
      simp [BuildPlan.branches, Choice.compile]
    · intro after
      have hslot : (done ++ inner).length = done.length + b.size := by
        rw [List.length_append, hlength]
      have hfind := childBuild_of_length (done ++ inner) (.ok (plan.sequence parts)) after hslot
      apply mapM_childBuild_cons
      · simpa only [List.append_assoc] using hfind
      · rfl
  | .more b rest =>
    obtain ⟨inner, parts, hinner, hlength, hb, hparts⟩ := b.tabulated_compile h.left rfl
    have hown := h.right
    rw [b.length_nodes, ← hlength, ← List.length_append] at hown
    have hplace : (done ++ inner ++ [Except.ok (plan.sequence parts)]).length =
        done.length + b.size + 1 := by
      rw [List.length_append, List.length_append, List.length_singleton, hlength]
    have hnext := hown.tail
    rw [List.length_append, hlength] at hnext
    obtain ⟨more, branches, hmore, hrest, hbranches, hfind⟩ := rest.tabulated_compile hnext hplace
    refine ⟨inner ++ [.ok (plan.sequence parts)] ++ more, plan.sequence parts :: branches,
      ?_, ?_, ?_, ?_⟩
    · rw [Choice.nodes, List.append_cons, List.map_append, List.map_append, List.map_singleton,
        tabulated_append, tabulated_concat, hinner,
        NodeShape.compile_branch hown.origin (by simpa using hparts []), hmore]
      simp only [List.append_assoc]
    · simp only [Choice.size, List.length_append, List.length_singleton, hlength, hrest]
    · rw [branches_cons, hb, hbranches]
      simp [Choice.compile]
    · intro after
      have hslot : (done ++ inner).length = done.length + b.size := by
        rw [List.length_append, hlength]
      have hown := childBuild_of_length (done ++ inner) (.ok (plan.sequence parts)) (more ++ after)
        hslot
      apply mapM_childBuild_cons
      · simpa only [List.append_assoc] using hown
      · simpa only [List.append_assoc] using hfind after

end

namespace Pattern

variable (p : Pattern)

theorem assemble_arena (plan : BuildPlan) :
    plan.assemble p.arena (p.layout.first + p.root.size)
      (fun next => p.root.compile plan p.layout.first next) = plan.run p := by
  rw [BuildPlan.assemble, p.layout_arena]
  rfl

theorem numbered_arena (hids : n.ids = idsOf p.nodes) : Numbered n p.arena.spans 0 p.nodes := by
  refine ⟨⟨[], [], ?_, rfl⟩, ⟨[], [], ?_, rfl⟩⟩
  · rw [hids, List.nil_append, List.append_nil]
  · rw [p.spans_arena, List.nil_append, List.append_nil]

/-- Found by its slot, the root is compiled like the root of the tree. -/
theorem childBuild_root (hids : n.ids = idsOf p.nodes) (plan : BuildPlan) :
    childBuild (p.arena.compile plan n) p.arena.root =
      .ok fun next => p.root.compile plan p.layout.first next := by
  have hroot := (p.numbered_arena hids).left
  have htabulated : ∃ inner, tabulated (NodeShape.compile plan n p.arena.spans) []
      ((p.root.nodes 0 p.layout.first p.rootParentSlot).map (·.shape)) =
        [] ++ inner ++ [.ok fun next => p.root.compile plan p.layout.first next] ∧
      inner.length + 1 = p.root.size := p.root.tabulated_compile hroot rfl
  obtain ⟨inner, hinner, hlength⟩ := htabulated
  obtain ⟨more, hmore, -⟩ := tabulated_eq_append (NodeShape.compile plan n p.arena.spans)
    (inner ++ [.ok fun next => p.root.compile plan p.layout.first next])
    [.sentinel, .rootParent p.rootSlot p.root.size]
  have htable : p.arena.compile plan n =
      inner ++ [.ok fun next => p.root.compile plan p.layout.first next] ++ more := by
    rw [← hmore, ← List.nil_append inner, ← hinner, ← tabulated_append]
    simp [Arena.compile, arena, nodes]
  have hslot : inner.length = p.arena.root := by
    change inner.length = p.root.size - 1
    omega
  rw [htable, childBuild_of_length inner _ more hslot]

/-- From an arena with the ids of its tree the automaton is built that the tree gives, or refused for
the same reason. -/
theorem build_arena (hids : n.ids = idsOf p.nodes) (hindex : n.index ≠ []) (config : Config)
    (direction : Direction) :
    p.arena.build n config direction = .ok (Nfa.build ⟨p, true⟩ config direction) := by
  have hrow := p.holds_arena.right
  rw [p.root.length_nodes, Nat.zero_add] at hrow
  have hsentinel : p.arena.sentinel? = some p.root.size := by
    have hparent : p.arena.shapes[p.arena.rootParent]? = some (.rootParent p.rootSlot p.root.size) :=
      hrow.tail.head
    rw [Arena.sentinel?, hparent]
  have haccepting : n.origin p.root.size = .ok (p.layout.first + p.root.size) := by
    have hnumbered := (p.numbered_arena hids).right
    rw [p.root.length_nodes, Nat.zero_add] at hnumbered
    exact hnumbered.origin
  have hempty : n.index.isEmpty = false := by simpa using hindex
  have hnumbered : (!(NumberedPattern.mk p true).numbered) = false := rfl
  rw [Arena.build, Nfa.build, hempty, hnumbered, p.hasBackReference_arena, hsentinel]
  have hplan (plan : BuildPlan) : (do
      let accepting ← n.origin p.root.size
      let root ← childBuild (p.arena.compile plan n) p.arena.root
      return (plan.assemble p.arena accepting root).run' {}) =
        (Except.ok ((plan.run p).run' {}) : Except Breach (Except Refusal Nfa)) := by
    rw [haccepting, p.childBuild_root hids, ← p.assemble_arena]
    rfl
  have hcontext : p.arena.context = p.context := rfl
  have hflags : p.arena.flags = p.flags := rfl
  simp only [hplan, hcontext, hflags, Bool.false_eq_true, if_false]
  by_cases hback : p.hasBackReference = true
  · rw [if_pos hback, if_pos hback]
  by_cases hbehind : config.maxLookBehind < p.context
  · rw [if_neg hback, if_neg hback, if_pos hbehind, if_pos hbehind]
  by_cases hbackward : direction = .backward ∧ 0 < p.context
  · rw [if_neg hback, if_neg hback, if_neg hbehind, if_neg hbehind, if_pos hbackward,
      if_pos hbackward]
  · rw [if_neg hback, if_neg hback, if_neg hbehind, if_neg hbehind, if_neg hbackward,
      if_neg hbackward]

end Pattern

end UnitRegex
