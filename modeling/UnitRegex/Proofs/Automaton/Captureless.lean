import UnitRegex.Automaton.Build
import UnitRegex.Proofs.Matching.Stretches

/-!
Patterns whose captures are taken out. They match the same stretches, and to the left they are
compiled to the same states, since an automaton in that direction has no captures.
-/

namespace UnitRegex

mutual

/-- The same term with groups that record nothing. -/
def Term.withoutCaptures : Term → Term
  | .unit set => .unit set
  | .anchor kind => .anchor kind
  | .look behind negated body => .look behind negated body.withoutCaptures
  | .backReference group => .backReference group
  | .group _ repeats body => .group none repeats body.withoutCaptures

def Branch.withoutCaptures : Branch → Branch
  | .nil => .nil
  | .cons t rest => .cons t.withoutCaptures rest.withoutCaptures

def Choice.withoutCaptures : Choice → Choice
  | .one b => .one b.withoutCaptures
  | .more b rest => .more b.withoutCaptures rest.withoutCaptures

end

mutual

theorem Term.groupSpan_withoutCaptures (t : Term) : t.withoutCaptures.groupSpan = none := by
  match t with
  | .unit _ | .anchor _ | .backReference _ => rfl
  | .look _ _ body | .group _ _ body => exact body.groupSpan_withoutCaptures

theorem Branch.groupSpan_withoutCaptures (b : Branch) : b.withoutCaptures.groupSpan = none := by
  match b with
  | .nil => rfl
  | .cons t rest =>
    rw [Branch.withoutCaptures, Branch.groupSpan, t.groupSpan_withoutCaptures,
      rest.groupSpan_withoutCaptures]
    rfl

theorem Choice.groupSpan_withoutCaptures (c : Choice) : c.withoutCaptures.groupSpan = none := by
  match c with
  | .one b => exact b.groupSpan_withoutCaptures
  | .more b rest =>
    rw [Choice.withoutCaptures, Choice.groupSpan, b.groupSpan_withoutCaptures,
      rest.groupSpan_withoutCaptures]
    rfl

end

mutual

theorem Term.hasBackReference_withoutCaptures (t : Term) :
    t.withoutCaptures.hasBackReference = t.hasBackReference := by
  match t with
  | .unit _ | .anchor _ | .backReference _ => rfl
  | .look _ _ body | .group _ _ body => exact body.hasBackReference_withoutCaptures

theorem Branch.hasBackReference_withoutCaptures (b : Branch) :
    b.withoutCaptures.hasBackReference = b.hasBackReference := by
  match b with
  | .nil => rfl
  | .cons t rest =>
    rw [Branch.withoutCaptures, Branch.hasBackReference, t.hasBackReference_withoutCaptures,
      rest.hasBackReference_withoutCaptures, Branch.hasBackReference]

theorem Choice.hasBackReference_withoutCaptures (c : Choice) :
    c.withoutCaptures.hasBackReference = c.hasBackReference := by
  match c with
  | .one b => exact b.hasBackReference_withoutCaptures
  | .more b rest =>
    rw [Choice.withoutCaptures, Choice.hasBackReference, b.hasBackReference_withoutCaptures,
      rest.hasBackReference_withoutCaptures, Choice.hasBackReference]

end

mutual

theorem Term.nullable_withoutCaptures (t : Term) : t.withoutCaptures.nullable = t.nullable := by
  match t with
  | .unit _ | .anchor _ | .look _ _ _ | .backReference _ => rfl
  | .group _ none body => exact body.nullable_withoutCaptures
  | .group _ (some q) body =>
    rw [Term.withoutCaptures, Term.nullable, body.nullable_withoutCaptures, Term.nullable]

theorem Branch.nullable_withoutCaptures (b : Branch) :
    b.withoutCaptures.nullable = b.nullable := by
  match b with
  | .nil => rfl
  | .cons t rest =>
    rw [Branch.withoutCaptures, Branch.nullable, t.nullable_withoutCaptures,
      rest.nullable_withoutCaptures, Branch.nullable]

theorem Choice.nullable_withoutCaptures (c : Choice) :
    c.withoutCaptures.nullable = c.nullable := by
  match c with
  | .one b => exact b.nullable_withoutCaptures
  | .more b rest =>
    rw [Choice.withoutCaptures, Choice.nullable, b.nullable_withoutCaptures,
      rest.nullable_withoutCaptures, Choice.nullable]

end

mutual

theorem Term.size_withoutCaptures (t : Term) : t.withoutCaptures.size = t.size := by
  match t with
  | .unit _ | .anchor _ | .backReference _ => rfl
  | .look _ _ body | .group _ _ body =>
    rw [Term.withoutCaptures, Term.size, body.size_withoutCaptures, Term.size]

theorem Branch.size_withoutCaptures (b : Branch) : b.withoutCaptures.size = b.size := by
  match b with
  | .nil => rfl
  | .cons t rest =>
    rw [Branch.withoutCaptures, Branch.size, t.size_withoutCaptures, rest.size_withoutCaptures,
      Branch.size]

theorem Choice.size_withoutCaptures (c : Choice) : c.withoutCaptures.size = c.size := by
  match c with
  | .one b => rw [Choice.withoutCaptures, Choice.size, b.size_withoutCaptures, Choice.size]
  | .more b rest =>
    rw [Choice.withoutCaptures, Choice.size, b.size_withoutCaptures, rest.size_withoutCaptures,
      Choice.size]

end

section

variable {flags : Flags} {context : Nat}

mutual

/-- Look-behinds may become plain sequences without their captures, so the context may have to
grow. -/
theorem Term.WellFormed.exists_withoutCaptures {t : Term} (h : t.WellFormed flags context) :
    ∃ c, t.withoutCaptures.WellFormed flags c := by
  match t with
  | .unit _ | .backReference _ => exact ⟨0, trivial⟩
  | .anchor kind => exact ⟨context, h⟩
  | .look behind negated body =>
    obtain ⟨c, hbody⟩ := Choice.WellFormed.exists_withoutCaptures h.1
    refine ⟨max c ((body.withoutCaptures.soleSequence?.map List.length).getD 0),
      hbody.widen (Nat.le_max_left _ _), fun _ sets hs => ?_⟩
    rw [hs]
    exact Nat.le_max_right _ _
  | .group capture repeats body =>
    obtain ⟨c, hbody⟩ := Choice.WellFormed.exists_withoutCaptures h.1
    exact ⟨c, hbody, by simp, h.2.2⟩

theorem Branch.WellFormed.exists_withoutCaptures {b : Branch} (h : b.WellFormed flags context) :
    ∃ c, b.withoutCaptures.WellFormed flags c := by
  match b with
  | .nil => exact ⟨0, trivial⟩
  | .cons t rest =>
    obtain ⟨c, ht⟩ := Term.WellFormed.exists_withoutCaptures h.1
    obtain ⟨c', hrest⟩ := Branch.WellFormed.exists_withoutCaptures h.2
    exact ⟨max c c', ht.widen (Nat.le_max_left c c'), hrest.widen (Nat.le_max_right c c')⟩

theorem Choice.WellFormed.exists_withoutCaptures {c : Choice} (h : c.WellFormed flags context) :
    ∃ c', c.withoutCaptures.WellFormed flags c' := by
  match c with
  | .one b => exact Branch.WellFormed.exists_withoutCaptures (b := b) h
  | .more b rest =>
    obtain ⟨c, hb⟩ := Branch.WellFormed.exists_withoutCaptures h.1
    obtain ⟨c', hrest⟩ := Choice.WellFormed.exists_withoutCaptures h.2
    exact ⟨max c c', hb.widen (Nat.le_max_left c c'), hrest.widen (Nat.le_max_right c c')⟩

end

end

section

variable {flags : Flags} {text : Text}

mutual

/-- The captures have no part in what is matched. -/
theorem Term.spans_withoutCaptures (t : Term) :
    t.withoutCaptures.Spans flags text = t.Spans flags text := by
  match t with
  | .unit _ | .anchor _ | .backReference _ => rfl
  | .look behind negated body =>
    rw [Term.withoutCaptures, Term.Spans, body.spans_withoutCaptures, Term.Spans]
  | .group _ none body => exact body.spans_withoutCaptures
  | .group _ (some q) body =>
    rw [Term.withoutCaptures, Term.Spans, body.spans_withoutCaptures, Term.Spans]

theorem Branch.spans_withoutCaptures (b : Branch) :
    b.withoutCaptures.Spans flags text = b.Spans flags text := by
  match b with
  | .nil => rfl
  | .cons t rest =>
    rw [Branch.withoutCaptures, Branch.Spans, t.spans_withoutCaptures, rest.spans_withoutCaptures,
      Branch.Spans]

theorem Choice.spans_withoutCaptures (c : Choice) :
    c.withoutCaptures.Spans flags text = c.Spans flags text := by
  match c with
  | .one b => exact b.spans_withoutCaptures
  | .more b rest =>
    rw [Choice.withoutCaptures, Choice.Spans, b.spans_withoutCaptures, rest.spans_withoutCaptures,
      Choice.Spans]

end

end

namespace BuildPlan

variable {plan : BuildPlan}

theorem groupPass_withoutCaptures (hcaptures : plan.captures = false) (origin : Nat)
    (capture : Option Nat) (branches : Nat → Build (List Nat)) :
    plan.groupPass origin none branches = plan.groupPass origin capture branches := by
  funext next
  cases capture <;> simp [groupPass, hcaptures]

theorem repetition_withoutCaptures (hcaptures : plan.captures = false) (origin : Nat)
    (q : Quantifier) (clear clear' : Option (Nat × Nat)) (nullable : Bool)
    (body : Nat → Build Nat) :
    plan.repetition origin q clear nullable body =
      plan.repetition origin q clear' nullable body := by
  funext next
  simp only [repetition, hcaptures, Bool.false_eq_true, if_false]

end BuildPlan

section

variable {plan : BuildPlan}

mutual

/-- To the left a term without captures is compiled to the same states. -/
theorem Term.compile_withoutCaptures (hd : plan.direction = .backward) (t : Term)
    (node next : Nat) : t.withoutCaptures.compile plan node next = t.compile plan node next := by
  have hcaptures : plan.captures = false := by simp [BuildPlan.captures, hd]
  match t with
  | .unit _ | .anchor _ | .backReference _ => rfl
  | .look true negated body =>
    simp only [Term.withoutCaptures, Term.compile, BuildPlan.lookBehind, hd]
  | .look false negated body =>
    simp only [Term.withoutCaptures, Term.compile, BuildPlan.lookAhead, hd]
  | .group capture none body =>
    simp only [Term.withoutCaptures, Term.compile, body.compile_withoutCaptures hd,
      BuildPlan.groupPass_withoutCaptures hcaptures node capture]
  | .group capture (some q) body =>
    simp only [Term.withoutCaptures, Term.compile, body.compile_withoutCaptures hd,
      BuildPlan.groupPass_withoutCaptures hcaptures node capture, body.nullable_withoutCaptures]
    rw [BuildPlan.repetition_withoutCaptures hcaptures]

theorem Branch.compile_withoutCaptures (hd : plan.direction = .backward) (b : Branch)
    (node next : Nat) : b.withoutCaptures.compile plan node next = b.compile plan node next := by
  match b with
  | .nil => rfl
  | .cons t rest =>
    simp only [Branch.withoutCaptures, Branch.compile, t.compile_withoutCaptures hd,
      rest.compile_withoutCaptures hd, t.size_withoutCaptures]

theorem Choice.compile_withoutCaptures (hd : plan.direction = .backward) (c : Choice)
    (node next : Nat) : c.withoutCaptures.compile plan node next = c.compile plan node next := by
  match c with
  | .one b => simp only [Choice.withoutCaptures, Choice.compile, b.compile_withoutCaptures hd]
  | .more b rest =>
    simp only [Choice.withoutCaptures, Choice.compile, b.compile_withoutCaptures hd,
      rest.compile_withoutCaptures hd, b.size_withoutCaptures]

end

end

end UnitRegex
