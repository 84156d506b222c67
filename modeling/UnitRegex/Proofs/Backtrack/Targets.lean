import UnitRegex.Proofs.Backtrack.Realized

/-!
Where the instructions of a pattern lead. Every target lies in the program and, except for the way
back to the head of a loop, behind the instruction that has it, so none is left unpatched and no
attempt leaves the program.
-/

namespace UnitRegex

/-- Where an instruction at an index lets an attempt go on. -/
def Op.targets (i : Nat) : Op → List Nat
  | .split first second => [first, second]
  | .jump target => [target]
  | .look _ next => [i + 1, next]
  | .repeatTest _ _ exit => [i + 1, exit]
  | .repeatNext _ _ _ head => [head]
  | .lookEnd | .accept => []
  | .read _ _ | .mark _ | .capture _ _ _ | .clear _ _ | .anchor _ | .backReference _ _
  | .repeatInit _ => [i + 1]

/-- The targets of an instruction come up to `stop` and lie behind it. Only the end of an iteration
leads back, to the head of its loop. -/
structure Op.Linked (ops : Array Op) (stop i : Nat) (op : Op) : Prop where
  le_stop : ∀ t ∈ op.targets i, t ≤ stop
  forward : ∀ t ∈ op.targets i, i < t ∨ ∃ counter mark min q exit,
    op = .repeatNext counter mark min t ∧ ops[t]? = some (.repeatTest counter q exit)

/-- The instructions from `lo` up to `hi` are linked. -/
def Op.AllLinked (ops : Array Op) (stop lo hi : Nat) : Prop :=
  ∀ i, lo ≤ i → i < hi → ∃ op, ops[i]? = some op ∧ op.Linked ops stop i

section

variable {ops : Array Op} {stop stop' lo mid hi : Nat} {op : Op}

theorem Op.AllLinked.widen (h : Op.AllLinked ops stop lo hi) (hle : stop ≤ stop') :
    Op.AllLinked ops stop' lo hi := by
  intro i hlo hhi
  obtain ⟨op, hop, hlinked⟩ := h i hlo hhi
  exact ⟨op, hop, fun t ht => (hlinked.le_stop t ht).trans hle, hlinked.forward⟩

theorem Op.AllLinked.append (h : Op.AllLinked ops stop lo mid)
    (h' : Op.AllLinked ops stop mid hi) : Op.AllLinked ops stop lo hi := by
  intro i hlo hhi
  rcases Nat.lt_or_ge i mid with hlt | hge
  · exact h i hlo hlt
  · exact h' i hge hhi

theorem Op.allLinked_single (hop : ops[lo]? = some op) (h : op.Linked ops stop lo) :
    Op.AllLinked ops stop lo (lo + 1) := by
  intro i hlo hhi
  obtain rfl : i = lo := by omega
  exact ⟨op, hop, h⟩

/-- An instruction of which all targets lie behind it. -/
theorem Op.linked_of_lt (h : ∀ t ∈ op.targets lo, lo < t ∧ t ≤ stop) : op.Linked ops stop lo :=
  ⟨fun t ht => (h t ht).2, fun t ht => .inl (h t ht).1⟩

end

namespace Layout

/-- Wherever a layout stands its instructions lead up to its end. -/
structure Linked (f : Layout) : Prop where
  all : ∀ {ops a r}, Op.Stand ops a (f.ops a r) → Op.AllLinked ops (a + f.size) a (a + f.size)

variable {f g : Layout}

theorem linked_nil : nil.Linked := ⟨fun _ _ hlo hhi => absurd hhi (Nat.not_lt.mpr hlo)⟩

theorem linked_single {op : Op} (h : ∀ i, op.targets i = [i + 1]) : (single op).Linked := by
  constructor
  intro ops a r hstand
  apply Op.allLinked_single hstand.head
  apply Op.linked_of_lt
  intro t ht
  obtain rfl := List.mem_singleton.mp (h a ▸ ht)
  exact ⟨Nat.lt_succ_self a, Nat.le_refl _⟩

theorem Linked.append (hf : f.Linked) (hg : g.Linked) : (f.append g).Linked := by
  constructor
  intro ops a r hstand
  have hright := hstand.right
  rw [f.length_ops] at hright
  have hsize : a + (f.append g).size = a + f.size + g.size := (Nat.add_assoc ..).symm
  rw [hsize]
  exact ((hf.all hstand.left).widen (Nat.le_add_right _ _)).append (hg.all hright)

theorem linked_clear (span : Option (Nat × Nat)) : (clear span).Linked := by
  cases span with
  | none => exact linked_nil
  | some range => exact linked_single fun _ => rfl

theorem Linked.pass (h : f.Linked) (d : Direction) (capture : Option Nat) :
    (pass d capture f).Linked := by
  cases capture with
  | none => exact h
  | some group =>
    constructor
    intro ops a r hstand
    have hbehind := hstand.tail.right
    rw [f.length_ops] at hbehind
    have hsize : a + (Layout.pass d (some group) f).size = a + 1 + f.size + 1 := by
      simp only [Layout.pass, capture]
      omega
    rw [hsize]
    have hmark : Op.AllLinked ops (a + 1 + f.size + 1) a (a + 1) :=
      Op.allLinked_single hstand.head (Op.linked_of_lt (by simp [Op.targets]; omega))
    have hcapture : Op.AllLinked ops (a + 1 + f.size + 1) (a + 1 + f.size) (a + 1 + f.size + 1) :=
      Op.allLinked_single hbehind.head (Op.linked_of_lt (by simp [Op.targets]))
    exact hmark.append (((h.all hstand.tail.left).widen (Nat.le_succ _)).append hcapture)

theorem Linked.look (h : f.Linked) (negated : Bool) : (f.look negated).Linked := by
  constructor
  intro ops a r hstand
  have hbehind := hstand.tail.right
  rw [f.length_ops] at hbehind
  have hsize : a + (f.look negated).size = a + 1 + f.size + 1 := by
    simp only [Layout.look]
    omega
  rw [hsize]
  have hlook : Op.AllLinked ops (a + 1 + f.size + 1) a (a + 1) :=
    Op.allLinked_single hstand.head (Op.linked_of_lt (by simp [Op.targets]; omega))
  have hend : Op.AllLinked ops (a + 1 + f.size + 1) (a + 1 + f.size) (a + 1 + f.size + 1) :=
    Op.allLinked_single hbehind.head (Op.linked_of_lt (by simp [Op.targets]))
  exact hlook.append (((h.all hstand.tail.left).widen (Nat.le_succ _)).append hend)

theorem Linked.either (hf : f.Linked) (hg : g.Linked) : (f.either g).Linked := by
  constructor
  intro ops a r hstand
  have hjump := hstand.tail.right
  rw [f.length_ops] at hjump
  have hsize : a + (f.either g).size = a + 1 + f.size + 1 + g.size := by
    simp only [Layout.either]
    omega
  rw [hsize]
  have hsplit : Op.AllLinked ops (a + 1 + f.size + 1 + g.size) a (a + 1) :=
    Op.allLinked_single hstand.head (Op.linked_of_lt (by simp [Op.targets]; omega))
  have hover : Op.AllLinked ops (a + 1 + f.size + 1 + g.size) (a + 1 + f.size)
      (a + 1 + f.size + 1) :=
    Op.allLinked_single hjump.head (Op.linked_of_lt (by simp [Op.targets]; omega))
  exact hsplit.append (((hf.all hstand.tail.left).widen (by omega)).append
    (hover.append (hg.all hjump.tail)))

theorem Linked.loop (h : f.Linked) (q : Quantifier) : (loop q f).Linked := by
  constructor
  intro ops a r hstand
  have htest := hstand.tail
  have hnext := htest.tail.tail.right
  rw [f.length_ops] at hnext
  have hsize : a + (Layout.loop q f).size = a + 3 + f.size + 1 := by
    simp only [Layout.loop]
    omega
  rw [hsize]
  have hinit : Op.AllLinked ops (a + 3 + f.size + 1) a (a + 1) :=
    Op.allLinked_single hstand.head (Op.linked_of_lt (by simp [Op.targets]; omega))
  have hhead : Op.AllLinked ops (a + 3 + f.size + 1) (a + 1) (a + 2) :=
    Op.allLinked_single htest.head (Op.linked_of_lt (by simp [Op.targets]; omega))
  have hmark : Op.AllLinked ops (a + 3 + f.size + 1) (a + 2) (a + 3) :=
    Op.allLinked_single htest.tail.head (Op.linked_of_lt (by simp [Op.targets]; omega))
  have hback : Op.AllLinked ops (a + 3 + f.size + 1) (a + 3 + f.size) (a + 3 + f.size + 1) := by
    apply Op.allLinked_single hnext.head
    constructor
    · simp [Op.targets]
      omega
    · intro t ht
      obtain rfl := List.mem_singleton.mp ht
      exact .inr ⟨_, _, _, _, _, rfl, htest.head⟩
  exact hinit.append (hhead.append (hmark.append
    (((h.all htest.tail.tail.left).widen (Nat.le_succ _)).append hback)))

end Layout

mutual

theorem Term.linked_layout (d : Direction) (t : Term) : (t.layout d).Linked := by
  match t with
  | .unit _ | .anchor _ | .backReference _ => exact Layout.linked_single fun _ => rfl
  | .look behind negated body => exact (body.linked_layout (.ofLook behind)).look negated
  | .group capture none body => exact (body.linked_layout d).pass d capture
  | .group capture (some q) body =>
    exact ((Layout.linked_clear _).append ((body.linked_layout d).pass d capture)).loop q

theorem Branch.linked_layout (d : Direction) (b : Branch) : (b.layout d).Linked := by
  match b, d with
  | .nil, _ => exact Layout.linked_nil
  | .cons t rest, .forward => exact (t.linked_layout _).append (rest.linked_layout _)
  | .cons t rest, .backward => exact (rest.linked_layout _).append (t.linked_layout _)

theorem Choice.linked_layout (d : Direction) (c : Choice) : (c.layout d).Linked := by
  match c with
  | .one b => exact b.linked_layout d
  | .more b rest => exact (b.linked_layout d).either (rest.linked_layout d)

end

end UnitRegex
