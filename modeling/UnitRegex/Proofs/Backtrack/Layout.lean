import UnitRegex.Backtrack.Emit

/-!
What the builder lays out, without patches. The instructions of a term depend on where they begin
and on the first register that is free there, and their number and registers on neither. Every target
stands in them as it is after all patches.
-/

namespace UnitRegex

/-- A row of instructions that can be laid out anywhere. -/
structure Layout where
  /-- The instructions from an index on, with registers from a number on. -/
  ops : Nat → Nat → List Op
  size : Nat
  length_ops : ∀ a r, (ops a r).length = size
  /-- For every register whether only runs of look-arounds use it. -/
  inner : List Bool

namespace Layout

/-- Number of registers. -/
def registers (f : Layout) : Nat := f.inner.length

def nil : Layout := ⟨fun _ _ => [], 0, fun _ _ => rfl, []⟩

/-- An instruction that has no registers of its own. -/
def single (op : Op) : Layout := ⟨fun _ _ => [op], 1, fun _ _ => rfl, []⟩

def append (f g : Layout) : Layout where
  ops a r := f.ops a r ++ g.ops (a + f.size) (r + f.registers)
  size := f.size + g.size
  length_ops a r := by rw [List.length_append, f.length_ops, g.length_ops]
  inner := f.inner ++ g.inner

def clear : Option (Nat × Nat) → Layout
  | none => nil
  | some (lo, hi) => single (.clear (2 * lo) (2 * hi))

/-- A group whose capture is recorded. -/
def capture (d : Direction) (group : Nat) (body : Layout) : Layout where
  ops a r := .mark r :: (body.ops (a + 1) (r + 1) ++ [.capture group r d])
  size := body.size + 2
  length_ops a r := by simp [body.length_ops]
  inner := false :: body.inner

def pass (d : Direction) : Option Nat → Layout → Layout
  | none, body => body
  | some group, body => capture d group body

def loop (q : Quantifier) (once : Layout) : Layout where
  ops a r := .repeatInit r :: .repeatTest r q (a + 3 + once.size + 1) :: .mark (r + 1) ::
    (once.ops (a + 3) (r + 2) ++ [.repeatNext r (r + 1) q.min (a + 1)])
  size := once.size + 4
  length_ops a r := by simp [once.length_ops]
  inner := false :: false :: once.inner

def look (negated : Bool) (body : Layout) : Layout where
  ops a r := .look negated (a + 1 + body.size + 1) :: (body.ops (a + 1) r ++ [.lookEnd])
  size := body.size + 2
  length_ops a r := by simp [body.length_ops]
  inner := List.replicate body.registers true

def either (f g : Layout) : Layout where
  ops a r := .split (a + 1) (a + 1 + f.size + 1) :: (f.ops (a + 1) r ++
    .jump (a + 1 + f.size + 1 + g.size) :: g.ops (a + 1 + f.size + 1) (r + f.registers))
  size := f.size + g.size + 2
  length_ops a r := by
    rw [List.length_cons, List.length_append, List.length_cons, f.length_ops, g.length_ops]
    omega
  inner := f.inner ++ g.inner

end Layout

mutual

def Term.layout (d : Direction) : Term → Layout
  | .unit set => .single (.read set d)
  | .anchor kind => .single (.anchor kind)
  | .backReference group => .single (.backReference group d)
  | .look behind negated body =>
    .look negated (body.layout (if behind then .backward else .forward))
  | .group capture none body => .pass d capture (body.layout d)
  | .group capture (some q) body =>
    .loop q ((Layout.clear (Term.group capture (some q) body).groupSpan).append
      (.pass d capture (body.layout d)))

def Branch.layout (d : Direction) : Branch → Layout
  | .nil => .nil
  | .cons t rest =>
    match d with
    | .forward => (t.layout d).append (rest.layout d)
    | .backward => (rest.layout d).append (t.layout d)

def Choice.layout (d : Direction) : Choice → Layout
  | .one b => b.layout d
  | .more b rest => .either (b.layout d) (rest.layout d)

end

/-! ### What is appended -/

/-- A builder with some instructions appended and some more registers in use. -/
def Builder.extend (b : Builder) (l : List Op) (registers : Nat) : Builder :=
  ⟨b.ops ++ l.toArray, b.registers + registers⟩

namespace Builder

variable (b : Builder) (l l' : List Op) (k k' : Nat)

@[simp] theorem extend_nil : b.extend [] 0 = b := by simp [extend]

@[simp] theorem size_extend : (b.extend l k).ops.size = b.ops.size + l.length := by simp [extend]

@[simp] theorem registers_extend : (b.extend l k).registers = b.registers + k := rfl

@[simp] theorem extend_extend :
    (b.extend l k).extend l' k' = b.extend (l ++ l') (k + k') := by
  simp [extend, Nat.add_assoc]

end Builder

namespace Assembly

variable (b : Builder)

@[simp] theorem run_push (op : Op) : (push op).run b = pure (b.ops.size, b.extend [op] 0) := by
  simp [push, Builder.extend, modifyGet, MonadStateOf.modifyGet, StateT.modifyGet, StateT.run]

@[simp] theorem run_emit (op : Op) : (emit op).run b = pure ((), b.extend [op] 0) := by
  simp [emit]

@[simp] theorem run_register : register.run b = pure (b.registers, b.extend [] 1) := by
  simp [register, Builder.extend, modifyGet, MonadStateOf.modifyGet, StateT.modifyGet, StateT.run]

@[simp] theorem run_here : here.run b = pure (b.ops.size, b) := by
  simp [here]

/-- Only the target at the index that is patched changes. -/
theorem run_patch {i : Nat} (l l' : List Op) (op : Op) (k target : Nat)
    (hi : i = b.ops.size + l.length) :
    (patch i target).run (b.extend (l ++ op :: l') k) =
      pure ((), b.extend (l ++ op.leadTo target :: l') k) := by
  have hmodify : (b.ops ++ (l ++ op :: l').toArray).modify i (Op.leadTo target) =
      b.ops ++ (l ++ op.leadTo target :: l').toArray := by
    apply Array.toList_inj.mp
    rw [Array.toList_modify, Array.toList_append, Array.toList_append, hi,
      ← b.ops.length_toList, ← List.length_append, ← List.append_assoc,
      ← List.append_assoc]
    exact List.modifyTailIdx_add (List.modifyHead (Op.leadTo target)) 0 _ _
  rw [patch, StateT.run_modify, Builder.extend, hmodify]
  rfl

/-- A build of some instructions appends what is laid out. -/
structure Emits (m : Assembly Unit) (f : Layout) : Prop where
  run : ∀ b : Builder,
    m.run b = pure ((), b.extend (f.ops b.ops.size b.registers) f.registers)

/-- A build of alternatives appends what is laid out, up to jumps that are still open. -/
structure Drafts (m : Assembly (List Nat)) (f : Layout) (draft : Nat → Nat → List Op)
    (jumps : Nat → List Nat) : Prop where
  run : ∀ b : Builder,
    m.run b = pure (jumps b.ops.size, b.extend (draft b.ops.size b.registers) f.registers)
  length_draft : ∀ a r, (draft a r).length = f.size
  close : ∀ (b : Builder) (r k : Nat),
    (forM (jumps b.ops.size) (patch · (b.ops.size + f.size))).run
      (b.extend (draft b.ops.size r) k) = pure ((), b.extend (f.ops b.ops.size r) k)

theorem emits_emit (op : Op) : Emits (emit op) (.single op) := ⟨fun b => run_emit b op⟩

theorem emits_nil : Emits (pure ()) .nil where
  run b := by simp [Layout.nil, Layout.registers]

theorem Emits.append {m n : Assembly Unit} {f g : Layout} (hm : Emits m f) (hn : Emits n g) :
    Emits (do m; n) (f.append g) where
  run b := by
    simp only [StateT.run_bind, hm.run, pure_bind, hn.run, Builder.size_extend,
      Builder.registers_extend, Builder.extend_extend, f.length_ops]
    simp [Layout.append, Layout.registers]

theorem Drafts.closing {m : Assembly (List Nat)} {f : Layout} {draft : Nat → Nat → List Op}
    {jumps : Nat → List Nat} (h : Drafts m f draft jumps) : Emits (closing m) f where
  run b := by
    simp only [Assembly.closing, StateT.run_bind, h.run, pure_bind, run_here, Builder.size_extend,
      h.length_draft, h.close]

theorem Emits.drafts {m : Assembly Unit} {f : Layout} (h : Emits m f) :
    Drafts (do m; return []) f f.ops fun _ => [] where
  run b := by simp only [StateT.run_bind, h.run, pure_bind, StateT.run_pure]
  length_draft := f.length_ops
  close _ _ _ := rfl

theorem emits_clear (span : Option (Nat × Nat)) : Emits (clear span) (.clear span) := by
  cases span with
  | none => exact emits_nil
  | some range => exact emits_emit _

theorem Emits.capture {m : Assembly Unit} {f : Layout} (h : Emits m f) (d : Direction)
    (group : Nat) :
    Emits (do let r ← register; emit (.mark r); m; emit (.capture group r d))
      (f.capture d group) where
  run b := by
    simp only [StateT.run_bind, run_register, run_emit, h.run, pure_bind, Builder.size_extend,
      Builder.registers_extend, Builder.extend_extend]
    simp [Layout.capture, Layout.registers, Nat.add_comm]

theorem Emits.look {m : Assembly Unit} {f : Layout} (h : Emits m f) (negated : Bool) :
    Emits (look negated m) (f.look negated) where
  run b := by
    have hpatch := run_patch b [] (f.ops (b.ops.size + 1) b.registers ++ [.lookEnd])
      (.look negated 0) f.registers (b.ops.size + 1 + f.size + 1) rfl
    simp only [Assembly.look, StateT.run_bind, run_push, run_emit, h.run, pure_bind, run_here,
      Builder.size_extend, Builder.registers_extend, Builder.extend_extend]
    simpa [Layout.look, Layout.registers, f.length_ops, Op.leadTo] using hpatch

theorem Emits.loop {m : Assembly Unit} {f : Layout} (h : Emits m f) (q : Quantifier) :
    Emits (loop q m) (.loop q f) where
  run b := by
    have hpatch := run_patch b [.repeatInit b.registers]
      (.mark (b.registers + 1) :: (f.ops (b.ops.size + 3) (b.registers + 2) ++
        [.repeatNext b.registers (b.registers + 1) q.min (b.ops.size + 1)]))
      (.repeatTest b.registers q 0) (2 + f.registers) (b.ops.size + 3 + f.size + 1) rfl
    simp only [Assembly.loop, StateT.run_bind, run_register, run_push, run_emit, h.run, pure_bind,
      run_here, Builder.size_extend, Builder.registers_extend, Builder.extend_extend]
    simpa [Layout.loop, Layout.registers, f.length_ops, Op.leadTo, ← Nat.add_assoc,
      Nat.add_comm 2] using hpatch

theorem Drafts.either {m : Assembly Unit} {n : Assembly (List Nat)} {f g : Layout}
    {draft : Nat → Nat → List Op} {jumps : Nat → List Nat} (hm : Emits m f)
    (hn : Drafts n g draft jumps) :
    Drafts (either m n) (f.either g)
      (fun a r => .split (a + 1) (a + 1 + f.size + 1) :: (f.ops (a + 1) r ++
        .jump 0 :: draft (a + 1 + f.size + 1) (r + f.registers)))
      fun a => (a + 1 + f.size) :: jumps (a + 1 + f.size + 1) where
  run b := by
    have hpatch := run_patch b [] (f.ops (b.ops.size + 1) b.registers ++ [.jump 0])
      (.split (b.ops.size + 1) 0) f.registers (b.ops.size + 1 + f.size + 1) rfl
    simp only [List.nil_append, List.length_nil, Nat.add_zero, Op.leadTo] at hpatch
    simp only [Assembly.either, StateT.run_bind, run_push, hm.run, pure_bind, run_here,
      Builder.size_extend, Builder.registers_extend, Builder.extend_extend, f.length_ops,
      Nat.add_zero, Nat.zero_add, List.singleton_append, hn.run, List.length_cons, List.length_nil,
      hpatch, StateT.run_pure, List.length_append]
    have hbehind : b.ops.size + (f.size + 1 + 1) = b.ops.size + 1 + f.size + 1 := by omega
    simp [Layout.either, Layout.registers, hbehind]
  length_draft a r := by
    simp only [Layout.either, List.length_cons, List.length_append, f.length_ops, hn.length_draft]
    omega
  close b r k := by
    let front : List Op := .split (b.ops.size + 1) (b.ops.size + 1 + f.size + 1) ::
      f.ops (b.ops.size + 1) r
    have hfront : b.ops.size + 1 + f.size = b.ops.size + front.length := by
      simp only [front, List.length_cons, f.length_ops]
      omega
    have hstop : b.ops.size + (f.either g).size = b.ops.size + 1 + f.size + 1 + g.size := by
      simp only [Layout.either]
      omega
    rw [hstop]
    generalize htarget : b.ops.size + 1 + f.size + 1 + g.size = stop
    have hfirst := run_patch b front (draft (b.ops.size + 1 + f.size + 1)
      (r + f.registers)) (.jump 0) k stop hfront
    -- To the other jumps the first one is part of what was there before.
    have hothers := hn.close (b.extend (front ++ [.jump stop]) 0) (r + f.registers) k
    have hsize : (b.extend (front ++ [.jump stop]) 0).ops.size = b.ops.size + 1 + f.size + 1 := by
      rw [Builder.size_extend, List.length_append, ← Nat.add_assoc, ← hfront]
      rfl
    rw [hsize, htarget, Builder.extend_extend, Builder.extend_extend, Nat.zero_add,
      List.append_assoc, List.append_assoc] at hothers
    rw [List.forM_cons, StateT.run_bind]
    apply (congrArg (· >>= _) hfirst).trans
    simpa [Layout.either, htarget, front, Op.leadTo] using hothers

end Assembly

mutual

theorem Term.emits_layout (d : Direction) (t : Term) : Assembly.Emits (t.emit d) (t.layout d) := by
  match t with
  | .unit _ | .anchor _ | .backReference _ => exact Assembly.emits_emit _
  | .look behind negated body =>
    obtain ⟨draft, jumps, hdraft⟩ := body.drafts_layout (if behind then .backward else .forward)
    exact hdraft.closing.look negated
  | .group none none body =>
    obtain ⟨draft, jumps, hdraft⟩ := body.drafts_layout d
    exact hdraft.closing
  | .group (some group) none body =>
    obtain ⟨draft, jumps, hdraft⟩ := body.drafts_layout d
    exact hdraft.closing.capture d group
  | .group none (some q) body =>
    obtain ⟨draft, jumps, hdraft⟩ := body.drafts_layout d
    exact ((Assembly.emits_clear _).append hdraft.closing).loop q
  | .group (some group) (some q) body =>
    obtain ⟨draft, jumps, hdraft⟩ := body.drafts_layout d
    exact ((Assembly.emits_clear _).append (hdraft.closing.capture d group)).loop q

theorem Branch.emits_layout (d : Direction) (b : Branch) :
    Assembly.Emits (b.emit d) (b.layout d) := by
  match b, d with
  | .nil, _ => exact Assembly.emits_nil
  | .cons t rest, .forward => exact (t.emits_layout _).append (rest.emits_layout _)
  | .cons t rest, .backward => exact (rest.emits_layout _).append (t.emits_layout _)

theorem Choice.drafts_layout (d : Direction) (c : Choice) :
    ∃ draft jumps, Assembly.Drafts (c.emit d) (c.layout d) draft jumps := by
  match c with
  | .one b => exact ⟨_, _, (b.emits_layout d).drafts⟩
  | .more b rest =>
    obtain ⟨draft, jumps, hdraft⟩ := rest.drafts_layout d
    exact ⟨_, _, Assembly.Drafts.either (b.emits_layout d) hdraft⟩

end

/-- The builder leaves the layout of the whole pattern, with an instruction behind it that
accepts. -/
theorem Pattern.machine_eq (p : Pattern) :
    p.machine = ⟨((p.root.layout .forward).ops 0 0 ++ [Op.accept]).toArray,
      (p.root.layout .forward).registers, p.groupCount, p.flags⟩ := by
  have hbuilt :=
    ((p.root.emits_layout .forward).append (Assembly.emits_emit Op.accept)).run ⟨#[], 0⟩
  have hmachine := congrArg (fun built : Unit × Builder =>
    (⟨built.2.ops, built.2.registers, p.groupCount, p.flags⟩ : Machine)) hbuilt
  apply hmachine.trans
  simp [pure, Builder.extend, Layout.append, Layout.single, Layout.registers]

end UnitRegex
