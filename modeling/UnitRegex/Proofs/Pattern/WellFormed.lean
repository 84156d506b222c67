import UnitRegex.Proofs.Matching.Frame

/-!
What a pattern has by the way it is read: bounds of quantifiers in order, groups whose start no
group inside them records, and a context that covers what its look-behinds see.
-/

namespace UnitRegex

def Quantifier.InOrder (q : Quantifier) : Prop := ∀ high, q.max = some high → q.min ≤ high

mutual

def Term.WellFormed (flags : Flags) (context : Nat) : Term → Prop
  | .unit _ | .backReference _ => True
  | .anchor kind => kind = .caret → flags.multiline = true → 1 ≤ context
  | .look behind _ body =>
    body.WellFormed flags context ∧
      (behind = true → ∀ sets, body.soleSequence? = some sets → sets.length ≤ context)
  | .group capture repeats body =>
    body.WellFormed flags context ∧
      (∀ g, capture = some g → SlotOutside (2 * g) body.groupSpan) ∧
      ∀ q, repeats = some q → q.InOrder

def Branch.WellFormed (flags : Flags) (context : Nat) : Branch → Prop
  | .nil => True
  | .cons t rest => t.WellFormed flags context ∧ rest.WellFormed flags context

def Choice.WellFormed (flags : Flags) (context : Nat) : Choice → Prop
  | .one b => b.WellFormed flags context
  | .more b rest => b.WellFormed flags context ∧ rest.WellFormed flags context

end

def Pattern.WellFormed (p : Pattern) : Prop := p.root.WellFormed p.flags p.context

variable {flags : Flags} {a b : Nat}

mutual

/-- A wider context serves as well. -/
theorem Term.WellFormed.widen {t : Term} (h : t.WellFormed flags a) (hle : a ≤ b) :
    t.WellFormed flags b := by
  match t with
  | .unit _ | .backReference _ => trivial
  | .anchor kind => exact fun hkind hmulti => Nat.le_trans (h hkind hmulti) hle
  | .look behind _ body =>
    obtain ⟨hbody, hlength⟩ := h
    exact ⟨hbody.widen hle, fun hb sets hs => Nat.le_trans (hlength hb sets hs) hle⟩
  | .group capture repeats body =>
    obtain ⟨hbody, hspan, hq⟩ := h
    exact ⟨hbody.widen hle, hspan, hq⟩

theorem Branch.WellFormed.widen {b' : Branch} (h : b'.WellFormed flags a) (hle : a ≤ b) :
    b'.WellFormed flags b := by
  match b' with
  | .nil => trivial
  | .cons t rest => exact ⟨Term.WellFormed.widen h.1 hle, Branch.WellFormed.widen h.2 hle⟩

theorem Choice.WellFormed.widen {c : Choice} (h : c.WellFormed flags a) (hle : a ≤ b) :
    c.WellFormed flags b := by
  match c with
  | .one b' =>
    have hb : b'.WellFormed flags a := h
    exact hb.widen hle
  | .more b' rest => exact ⟨Branch.WellFormed.widen h.1 hle, Choice.WellFormed.widen h.2 hle⟩

end

end UnitRegex
