import UnitRegex.Pattern.NodeReader
import UnitRegex.Proofs.Pattern.Parsed

/-!
Growing an arena while a pattern is read. It comes to the same as reading the pattern first and then
pushing the nodes of its tree, because every node that is pushed on the way belongs to what has been
read by then.
-/

namespace UnitRegex

open Growth Reader

/-- Two readers do the same at a cursor. -/
def Reader.Agree {α : Type} (s : Setting) (c : Cursor) (m m' : Reader α) : Prop := m s c = m' s c

namespace Reader.Agree

variable {α : Type} {s : Setting} {c : Cursor}

theorem read {f f' : Setting → Reader α} (h : Agree s c (f s) (f' s)) :
    Agree s c (MonadReader.read >>= f) (MonadReader.read >>= f') := h

theorem get {f f' : Cursor → Reader α} (h : Agree s c (f c) (f' c)) :
    Agree s c (MonadState.get >>= f) (MonadState.get >>= f') := h

end Reader.Agree

/-- From some nodes on, a grower gives what a reader gives, and the nodes of that as if they had
been pushed to other nodes, which stood there when the reader began. -/
def Grower.GrowsFrom {α β : Type} (base now : List LinkedNode) (s : Setting) (c : Cursor)
    (g : Grower (β × α)) (r : Reader α) (plant : α → Growth β) : Prop :=
  g now s c = (r s c).map fun x =>
    (((((plant x.1).run base).1, x.1), ((plant x.1).run base).2), x.2)

/-- A grower gives what a reader gives, and the nodes of that. -/
def Grower.Grows {α β : Type} (g : Grower (β × α)) (r : Reader α) (plant : α → Growth β) :
    Prop :=
  ∀ nodes s c, g.GrowsFrom nodes nodes s c r plant

namespace Grower.GrowsFrom

variable {α β γ δ : Type} {base now : List LinkedNode} {s : Setting} {c : Cursor}
  {plant : α → Growth β} {k : γ → Reader α} {r : Reader α}

theorem pure {a : α} {b : β} (h : (plant a).run base = (b, now)) :
    GrowsFrom base now s c (Pure.pure (b, a)) (Pure.pure a) plant := by
  show Except.ok (((b, a), now), c) = Except.ok (((((plant a).run base).1, a),
    ((plant a).run base).2), c)
  rw [h]

theorem fail {e : Fault} :
    GrowsFrom base now s c (Reader.fail e : Reader (β × α)) (Reader.fail e) plant := rfl

theorem throw {e : Fault × Nat} :
    GrowsFrom base now s c (MonadExcept.throw e : Reader (β × α)) (MonadExcept.throw e) plant := rfl

/-- A step that pushes nothing is taken on both sides. -/
theorem read {m : Reader γ} {f : γ → Grower (β × α)}
    (h : ∀ a c', m s c = .ok (a, c') → (f a).GrowsFrom base now s c' (k a) plant) :
    GrowsFrom base now s c ((m : Grower γ) >>= f) (m >>= k) plant := by
  show ((m s c >>= fun x => Except.ok ((x.1, now), x.2)) >>= fun x => f x.1.1 x.1.2 s x.2) =
    (m s c >>= fun x => k x.1 s x.2).map _
  cases hm : m s c with
  | error e => rfl
  | ok x => exact h x.1 x.2 hm

/-- So is a step whose result is not looked at. -/
theorem discard {m : Reader γ} {g : Grower (β × α)} (h : ∀ c', g.GrowsFrom base now s c' r plant) :
    GrowsFrom base now s c (Functor.discard (m : Grower γ) >>= fun _ => g)
      (Functor.discard m >>= fun _ => r) plant := by
  have hdiscard {m : Type → Type} [Monad m] [LawfulMonad m] {δ : Type} (x : m γ) (y : m δ) :
      (Functor.discard x >>= fun _ => y) = x >>= fun _ => y := by
    rw [Functor.discard, map_const, Function.comp_apply, bind_map_left]
  rw [hdiscard, hdiscard]
  exact .read fun _ c' _ => h c'

theorem congr {g : Grower (β × α)} {r' : Reader α} (h : g.GrowsFrom base now s c r plant)
    (hr : Agree s c r' r) : g.GrowsFrom base now s c r' plant := by
  rw [GrowsFrom, hr]
  exact h

theorem rest {f : List Char → Grower (β × α)} (h : (f c.rest).GrowsFrom base now s c r plant) :
    GrowsFrom base now s c (Grower.rest >>= f) r plant := h

theorem cursor {g : Grower (β × α)} {k : Cursor → Reader α}
    (h : g.GrowsFrom base now s c (k c) plant) : GrowsFrom base now s c g (get >>= k) plant := h

/-- Nodes may be pushed at any time. -/
theorem pushing {m : Growth γ} {f : γ → Grower (β × α)}
    (h : (f (m.run now).1).GrowsFrom base (m.run now).2 s c r plant) :
    GrowsFrom base now s c ((m : Grower γ) >>= f) r plant := h

/-- What has been grown so far is what the reader has read so far. -/
theorem bind {g : Grower (δ × γ)} {r : Reader γ} {plant' : γ → Growth δ}
    {f : δ × γ → Grower (β × α)} (hg : g.Grows r plant')
    (h : ∀ a c', r s c = .ok (a, c') →
      (f (((plant' a).run now).1, a)).GrowsFrom base ((plant' a).run now).2 s c' (k a) plant) :
    GrowsFrom base now s c (g >>= f) (r >>= k) plant := by
  show (g now s c >>= fun x => f x.1.1 x.1.2 s x.2) = (r s c >>= fun x => k x.1 s x.2).map _
  rw [hg now s c]
  cases hr : r s c with
  | error e => rfl
  | ok x => exact h x.1 x.2 hr

end Grower.GrowsFrom

open Grower

/-! ### Quantifiers -/

theorem Growth.reshape_concat (nodes : List LinkedNode) (node : LinkedNode) (shape : NodeShape) :
    reshape nodes.length shape (nodes ++ [node]) = nodes ++ [{ node with shape := shape }] := by
  induction nodes with
  | nil => rfl
  | cons first rest ih => exact congrArg (first :: ·) ih

theorem Growth.reshape_adopt (slot : Nat) (shape : NodeShape) (parent : Nat)
    (nodes : List LinkedNode) (child : Nat) :
    reshape slot shape (adopt parent nodes child) =
      adopt parent (reshape slot shape nodes) child := by
  apply List.ext_getElem?
  intro i
  simp only [reshape, adopt, List.getElem?_modify]
  cases nodes[i]? with
  | none => rfl
  | some node => by_cases hslot : slot = i <;> by_cases hchild : child = i <;> simp [hslot, hchild]

theorem Growth.reshape_foldl_adopt (slot : Nat) (shape : NodeShape) (parent : Nat)
    (children : List Nat) (nodes : List LinkedNode) :
    reshape slot shape (children.foldl (adopt parent) nodes) =
      children.foldl (adopt parent) (reshape slot shape nodes) := by
  induction children generalizing nodes with
  | nil => rfl
  | cons child children ih => rw [List.foldl_cons, ih, reshape_adopt, List.foldl_cons]

theorem Growth.map_shape_adopt (parent : Nat) (nodes : List LinkedNode) (child : Nat) :
    (adopt parent nodes child).map (·.shape) = nodes.map (·.shape) := by
  apply List.ext_getElem?
  intro i
  simp only [adopt, List.getElem?_map, List.getElem?_modify]
  cases nodes[i]? with
  | none => rfl
  | some node => by_cases hchild : child = i <;> simp [hchild]

theorem Growth.map_shape_foldl_adopt (parent : Nat) (children : List Nat)
    (nodes : List LinkedNode) :
    (children.foldl (adopt parent) nodes).map (·.shape) = nodes.map (·.shape) := by
  induction children generalizing nodes with
  | nil => rfl
  | cons child children ih => rw [List.foldl_cons, ih, map_shape_adopt]

/-- A new node stands behind the others, and its children know it. -/
theorem Growth.run_pushLinked (shape : NodeShape) (nodes : List LinkedNode) :
    (pushLinked shape).run nodes = (nodes.length,
      shape.children.foldl (adopt nodes.length) (nodes ++ [{ shape := shape }])) := by
  show (nodes.length, linkChildren nodes.length (nodes ++ [{ shape := shape }])) = _
  rw [linkChildren, List.getElem?_concat_length]

/-- The shape of a node that has just been pushed is the one that was pushed. -/
theorem Growth.shape_run_pushLinked (shape : NodeShape) (nodes : List LinkedNode) :
    ∃ parent, ((pushLinked shape).run nodes).2[nodes.length]? = some ⟨shape, parent⟩ := by
  have h : (((pushLinked shape).run nodes).2.map (·.shape))[nodes.length]? = some shape := by
    rw [run_pushLinked, map_shape_foldl_adopt, List.map_append, List.map_singleton,
      List.getElem?_append_right (by simp)]
    simp
  rw [List.getElem?_map] at h
  obtain ⟨node, hnode, rfl⟩ := Option.map_eq_some_iff.mp h
  exact ⟨node.parent, hnode⟩

/-- A quantifier that is put into a group later might as well have been there from the start. -/
theorem Growth.run_quantify_group (branches : List Nat) (capture : Option Nat) (q : Quantifier)
    (bodyNullable nullable : Bool) (nodes : List LinkedNode) :
    (quantify q nullable nodes.length).run
        ((pushLinked (.group branches capture none bodyNullable)).run nodes).2 =
      (pushLinked (.group branches capture (some q) bodyNullable)).run nodes := by
  obtain ⟨parent, hnode⟩ := shape_run_pushLinked (.group branches capture none bodyNullable) nodes
  show (quantifyNode q nullable nodes.length ((pushLinked _).run nodes).2[nodes.length]?).run _ = _
  rw [hnode]
  show (nodes.length, reshape nodes.length (.group branches capture (some q) bodyNullable)
    ((pushLinked _).run nodes).2) = _
  rw [run_pushLinked, run_pushLinked, reshape_foldl_adopt, reshape_concat]
  rfl

/-- A quantifier goes around anything but a group that has none. -/
theorem Growth.run_quantify_other (q : Quantifier) (nullable : Bool) (slot : Nat)
    (nodes : List LinkedNode)
    (hother : ∀ branches capture bodyNullable parent,
      nodes[slot]? ≠ some ⟨.group branches capture none bodyNullable, parent⟩) :
    (quantify q nullable slot).run nodes = (do
      let branch ← pushLinked (.branch [slot])
      pushLinked (.group [branch] none (some q) nullable) : Growth Nat).run nodes := by
  show (quantifyNode q nullable slot nodes[slot]?).run nodes = _
  unfold quantifyNode
  split
  · rename_i hnode
    exact absurd hnode (hother _ _ _ _)
  · rfl

/-- Putting a quantifier on a term that has been pushed comes to the same as pushing the repeated
term. -/
theorem Term.run_quantify (t : Term) (q : Quantifier) (nodes : List LinkedNode) :
    (quantify q (Choice.one (.cons t .nil)).nullable (t.grow.run nodes).1).run
      (t.grow.run nodes).2 = (t.repeated q).grow.run nodes := by
  match t with
  | .group capture none body =>
    exact run_quantify_group (body.grow.run nodes).1 capture q body.nullable _
      (body.grow.run nodes).2
  | .group capture (some r) body =>
    refine run_quantify_other q _ _ _ fun branches capture' bodyNullable parent h => ?_
    obtain ⟨parent', hnode⟩ := shape_run_pushLinked
      (.group (body.grow.run nodes).1 capture (some r) body.nullable) (body.grow.run nodes).2
    cases hnode.symm.trans h
  | .look behind negated body =>
    let group := (pushLinked (.group (body.grow.run nodes).1 none none body.nullable)).run
      (body.grow.run nodes).2
    let ending := (push .sentinel).run group.2
    refine run_quantify_other q _ _ _ fun branches capture bodyNullable parent h => ?_
    obtain ⟨parent', hnode⟩ := shape_run_pushLinked
      (.look behind negated group.1 ending.1 body) ending.2
    cases hnode.symm.trans h
  | .unit _ | .anchor _ | .backReference _ =>
    refine run_quantify_other q _ _ _ fun branches capture bodyNullable parent h => ?_
    cases (List.getElem?_concat_length).symm.trans h

/-! ### Terms -/

/-- The terms of a branch are pushed one after the other. -/
theorem Branch.run_grow_concat (l : List Term) (t : Term) (nodes : List LinkedNode) :
    (Branch.ofList (l ++ [t])).grow.run nodes =
      (((Branch.ofList l).grow.run nodes).1 ++
        [(t.grow.run ((Branch.ofList l).grow.run nodes).2).1],
      (t.grow.run ((Branch.ofList l).grow.run nodes).2).2) := by
  induction l generalizing nodes with
  | nil => rfl
  | cons first rest ih =>
    have hrest := ih (first.grow.run nodes).2
    exact congrArg (fun x : List Nat × List LinkedNode =>
      ((first.grow.run nodes).1 :: x.1, x.2)) hrest

/-- Without a parenthesis in front it does not matter how groups are read. -/
theorem readAtom_congr {c : Cursor} (h : ∀ rest, c.rest ≠ '(' :: rest) (group group' : Reader Term)
    (s : Setting) : Agree s c (readAtom group) (readAtom group') := by
  unfold readAtom
  refine .read (.get ?_)
  split
  case h_1 rest hrest => exact absurd hrest (h rest)
  all_goals rfl

variable {group : Grower (Nat × Term)} {rgroup : Reader Term}

theorem grows_growLeaf (leaf : Reader Term) : (growLeaf leaf).Grows leaf Term.grow := by
  intro nodes s c
  have h : (growLeaf leaf).GrowsFrom nodes nodes s c (leaf >>= pure) Term.grow :=
    .read fun t c' _ => .pushing (.pure rfl)
  rwa [bind_pure] at h

theorem readAtom_open {c : Cursor} {rest : List Char} (h : c.rest = '(' :: rest)
    (group : Reader Term) (s : Setting) : Agree s c (readAtom group) group := by
  obtain ⟨_, nextGroup, named, context⟩ := c
  subst h
  rfl

theorem grows_growAtom (hgroup : group.Grows rgroup Term.grow) :
    (growAtom group).Grows (readAtom rgroup) Term.grow := by
  intro nodes s c
  unfold growAtom
  refine .rest ?_
  split
  case h_1 rest hrest => exact (hgroup nodes s c).congr (readAtom_open hrest rgroup s)
  case h_2 hrest => exact (grows_growLeaf _ nodes s c).congr (readAtom_congr hrest rgroup _ s)

theorem grows_growTerm (hgroup : group.Grows rgroup Term.grow) :
    (growTerm group).Grows (readTerm rgroup) Term.grow := by
  intro nodes s c
  unfold growTerm
  refine .rest ?_
  split
  iterate 4
    rename_i rest hrest
    unfold readTerm
    refine .cursor ?_
    rw [hrest]
    exact grows_growLeaf _ nodes s c
  case h_5 hcaret hdollar hboundary hinside =>
    unfold readTerm
    refine .cursor ?_
    split
    case h_1 rest hrest => exact (hcaret rest hrest).elim
    case h_2 rest hrest => exact (hdollar rest hrest).elim
    case h_3 rest hrest => exact (hboundary rest hrest).elim
    case h_4 rest hrest => exact (hinside rest hrest).elim
    refine .bind (grows_growAtom hgroup) fun atom c' _ => .read fun repeats c'' _ => ?_
    cases repeats with
    | none => exact .pure rfl
    | some q =>
      refine .read fun s' d hs => ?_
      split
      · exact .fail
      · exact .pushing (.pure (atom.run_quantify q nodes).symm)

/-- The terms that have been read so far have been pushed as a branch. -/
def HasGrown (base now : List LinkedNode) (terms : List (Nat × Term)) : Prop :=
  (Branch.ofList (terms.reverse.map (·.2))).grow.run base = (terms.reverse.map (·.1), now)

theorem HasGrown.cons {base now : List LinkedNode} {terms : List (Nat × Term)}
    (h : HasGrown base now terms) (t : Term) :
    HasGrown base (t.grow.run now).2 (((t.grow.run now).1, t) :: terms) := by
  simp only [HasGrown, List.reverse_cons, List.map_append, List.map_singleton,
    Branch.run_grow_concat]
  rw [h]

theorem HasGrown.growsFrom {base now : List LinkedNode} {terms : List (Nat × Term)}
    (h : HasGrown base now terms) (s : Setting) (c : Cursor) : GrowsFrom base now s c
      (pure (terms.reverse.map (·.1), Branch.ofList (terms.reverse.map (·.2))))
      (pure (Branch.ofList (terms.map (·.2)).reverse)) Branch.grow := by
  rw [← List.map_reverse]
  exact .pure h

theorem growsFrom_growTerms (hgroup : group.Grows rgroup Term.grow) {base : List LinkedNode}
    {s : Setting} (ahead : List Char) (terms : List (Nat × Term)) (now : List LinkedNode)
    (c : Cursor) (hterms : HasGrown base now terms) :
    GrowsFrom base now s c (growTerms group ahead terms)
      (readTerms rgroup ahead (terms.map (·.2))) Branch.grow := by
  induction ahead generalizing terms now c with
  | nil => exact hterms.growsFrom s c
  | cons d ahead ih =>
    unfold growTerms
    refine .rest ?_
    split
    iterate 3
      rename_i hrest
      unfold readTerms
      refine .cursor ?_
      rw [hrest]
      exact hterms.growsFrom s c
    case h_4 hend hbar hclosing =>
      unfold readTerms
      refine .cursor ?_
      split
      case h_1 hrest => exact (hend hrest).elim
      case h_2 rest hrest => exact (hbar rest hrest).elim
      case h_3 rest hrest => exact (hclosing rest hrest).elim
      exact .bind (grows_growTerm hgroup) fun t c' _ => ih (_ :: terms) _ c' (hterms.cons t)

theorem grows_growBranches (hgroup : group.Grows rgroup Term.grow) (ahead : List Char) :
    (growBranches group ahead).Grows (readBranches rgroup ahead) Choice.grow := by
  induction ahead with
  | nil => exact fun nodes s c => .pushing (.pure rfl)
  | cons d ahead ih =>
    intro nodes s c
    unfold growBranches readBranches
    refine .rest (.cursor (.bind (fun nodes s c => growsFrom_growTerms hgroup _ [] nodes c rfl)
      fun b c' _ => .pushing (.read fun barred c'' _ => ?_)))
    split
    · exact .bind ih fun rest d _ => .pure rfl
    · exact .pure rfl

theorem grows_growChoice (hgroup : group.Grows rgroup Term.grow) :
    (growChoice group).Grows (readChoice rgroup) Choice.grow := fun nodes s c =>
  .rest (.cursor (grows_growBranches hgroup _ nodes s c))

/-! ### Groups -/

variable {choice : Grower (List Nat × Choice)} {rchoice : Reader Choice}

theorem grows_growCapture (hchoice : choice.Grows rchoice Choice.grow) (capture : Option Nat) :
    (growCapture choice capture).Grows (return .group capture none (← rchoice)) Term.grow :=
  fun _ _ _ => .bind hchoice fun _ _ _ => .pushing (.pure rfl)

theorem grows_growLook (hchoice : choice.Grows rchoice Choice.grow) (behind negated : Bool) :
    (growLook choice behind negated).Grows (readLook rchoice behind negated) Term.grow := by
  intro nodes s c
  refine .bind hchoice fun body c' _ => .pushing (.pushing (.pushing ?_))
  split
  · cases body.soleSequence? with
    | some sets => exact .read fun _ c'' _ => .pure rfl
    | none => exact .pure rfl
  · exact .pure rfl

theorem grows_growGroupBody (hchoice : choice.Grows rchoice Choice.grow) :
    (growGroupBody choice).Grows (readGroupBody rchoice) Term.grow := by
  intro nodes s c
  unfold growGroupBody
  refine .rest ?_
  split
  case h_1 rest hrest =>
    unfold readGroupBody
    refine .cursor ?_
    rw [hrest]
    exact .read fun _ c' _ => grows_growCapture hchoice none nodes s c'
  iterate 4
    rename_i rest hrest
    unfold readGroupBody
    refine .cursor ?_
    rw [hrest]
    exact .read fun _ c' _ => grows_growLook hchoice _ _ nodes s c'
  -- The other openings exclude each other only by the characters that do not follow.
  case h_6 rest hahead hnegated hrest =>
    unfold readGroupBody
    refine .cursor ?_
    split
    case h_6 rest' _ _ hrest' =>
      cases hrest.symm.trans hrest'
      refine .read fun _ c' _ => .read fun name c'' _ => .read fun now d _ => ?_
      split
      · exact .fail
      · exact .read fun n d' _ => .read fun _ d'' _ =>
          grows_growCapture hchoice (some n) nodes s d''
    all_goals grind
  case h_7 rest _ _ _ _ _ _ hrest =>
    unfold readGroupBody
    refine .cursor ?_
    split
    case h_7 rest' _ _ _ _ _ _ hrest' =>
      cases hrest.symm.trans hrest'
      exact .read fun _ c' _ => .fail
    all_goals grind
  case h_8 =>
    unfold readGroupBody
    refine .cursor ?_
    split
    case h_8 => exact .read fun n c' _ => grows_growCapture hchoice (some n) nodes s c'
    all_goals grind

theorem grows_growGroup (depth : Nat) : (growGroup depth).Grows (readGroup depth) Term.grow := by
  induction depth with
  | zero => exact fun nodes s c => .fail
  | succ depth ih =>
    intro nodes s c
    refine .rest (.cursor (.discard fun c' =>
      .bind (grows_growGroupBody (grows_growChoice ih)) fun t d _ => .read fun closed d' _ => ?_))
    split
    · exact .pure rfl
    · exact .read fun _ _ _ => .throw

/-! ### Whole patterns -/

/-- Pushes the nodes of a whole pattern and gives the slots of its root and of the root's parent. -/
def Choice.growWhole (body : Choice) : Growth (Nat × Nat) := do
  let root ← (Term.group (some 0) none body).grow
  let ending ← push .sentinel
  let rootParent ← pushLinked (.rootParent root ending)
  return (root, rootParent)

/-- Growing a pattern comes to reading it and pushing its nodes. -/
theorem growPattern_eq (nodes : List LinkedNode) (s : Setting) (c : Cursor) :
    growPattern nodes s c = (readPattern s c).map fun x => (x.1.growWhole.run nodes, x.2) := by
  let rchoice := readChoice (readGroup nestingLimit)
  have hroot : growCapture (growChoice (growGroup nestingLimit)) (some 0) nodes s c =
      (rchoice s c >>= fun x => .ok (Term.group (some 0) none x.1, x.2)).map _ :=
    grows_growCapture (grows_growChoice (grows_growGroup nestingLimit)) (some 0) nodes s c
  show (growCapture _ _ nodes s c >>= _) = (rchoice s c >>= _).map _
  rw [hroot]
  cases rchoice s c with
  | error e => rfl
  | ok x =>
    obtain ⟨body, rest, nextGroup, named, context⟩ := x
    cases rest <;> rfl

theorem Source.grow_eq (s : Source) : s.grow = s.parse.map fun p =>
    { shapes := (p.body.growWhole.run []).2.map (·.shape)
      parents := (p.body.growWhole.run []).2.map (·.parent)
      root := (p.body.growWhole.run []).1.1
      rootParent := (p.body.growWhole.run []).1.2
      flags := p.flags
      groupCount := p.groupCount
      context := p.context } := by
  let chars := s.pattern.toList
  let setting : Setting := ⟨s.flags, chars.length, scanGroups chars⟩
  have hpattern : ((growPattern.run []).run setting).run { rest := chars } =
      ((readPattern.run setting).run { rest := chars }).map fun x => (x.1.growWhole.run [], x.2) :=
    growPattern_eq [] setting { rest := chars }
  unfold Source.grow Source.parse
  dsimp only
  rw [hpattern]
  cases (readPattern.run setting).run { rest := chars } with
  | error e => rfl
  | ok x => rfl

end UnitRegex
