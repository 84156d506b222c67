import UnitRegex.Proofs.Pattern.WellFormed

/-!
The stretches of a text that a part of a pattern matches. Without back-references they depend
neither on the captures nor on the direction in which the part is read: a loop that drops its empty
iterations matches the same stretches from its other end.
-/

namespace UnitRegex

/-- A number of steps of a relation, one behind the other. -/
inductive Chain (r : Nat → Nat → Prop) : Nat → Nat → Nat → Prop
  | nil (i : Nat) : Chain r 0 i i
  | cons {n i k j : Nat} (h : r i k) (hrest : Chain r n k j) : Chain r (n + 1) i j

namespace Chain

variable {r : Nat → Nat → Prop} {n i j k : Nat}

theorem snoc (h : Chain r n i k) (hlast : r k j) : Chain r (n + 1) i j := by
  induction h with
  | nil i => exact .cons hlast (.nil j)
  | cons h _ ih => exact .cons h (ih hlast)

/-- Read from the other end, a chain has its steps the other way round. -/
theorem swap (h : Chain r n i j) : Chain (fun a b => r b a) n j i := by
  induction h with
  | nil i => exact .nil i
  | cons h _ ih => exact ih.snoc h

end Chain

/-- The bounds of a stretch in the order in which a direction meets them. -/
def Direction.orient : Direction → (Nat → Nat → Prop) → Nat → Nat → Prop
  | .forward, r => r
  | .backward, r => fun i j => r j i

namespace Direction

variable {d : Direction} {r s : Nat → Nat → Prop} {i j : Nat}

theorem orient_chain (d : Direction) (r : Nat → Nat → Prop) (n : Nat) :
    d.orient (Chain r n) = Chain (d.orient r) n := by
  cases d with
  | forward => rfl
  | backward => exact funext fun i => funext fun j => propext ⟨Chain.swap, Chain.swap⟩

theorem orient_self (h : ∀ i j, r i j → j = i) : d.orient r i j ↔ j = i ∧ r i i := by
  cases d with
  | forward =>
    constructor
    · intro hr
      obtain rfl := h i j hr
      exact ⟨rfl, hr⟩
    · rintro ⟨rfl, hr⟩
      exact hr
  | backward =>
    constructor
    · intro hr
      obtain rfl := h j i hr
      exact ⟨rfl, hr⟩
    · rintro ⟨rfl, hr⟩
      exact hr

end Direction

mutual

/-- A term matches the stretch of a text from one position to another. -/
def Term.Spans (flags : Flags) (text : Text) : Term → Nat → Nat → Prop
  | .unit set => fun i j => j = i + 1 ∧ text[i]?.any (set.contains ·) = true
  | .anchor kind => fun i j => j = i ∧ kind.holds flags.multiline text i = true
  | .look behind negated body => fun i j =>
    j = i ∧ ((∃ k, (Direction.ofLook behind).orient (body.Spans flags text) i k) ↔ negated = false)
  | .backReference _ => fun _ _ => False
  | .group _ none body => body.Spans flags text
  | .group _ (some q) body => fun i j =>
    ∃ n, q.min ≤ n ∧ (∀ high, q.max = some high → n ≤ high) ∧ Chain (body.Spans flags text) n i j

def Branch.Spans (flags : Flags) (text : Text) : Branch → Nat → Nat → Prop
  | .nil => fun i j => j = i
  | .cons t rest => fun i j => ∃ k, t.Spans flags text i k ∧ rest.Spans flags text k j

def Choice.Spans (flags : Flags) (text : Text) : Choice → Nat → Nat → Prop
  | .one b => b.Spans flags text
  | .more b rest => fun i j => b.Spans flags text i j ∨ rest.Spans flags text i j

end

/-- A stretch of a text, which may be empty. -/
def Text.Stretch (text : Text) (i j : Nat) : Prop := j = i ∨ (i < j ∧ j ≤ text.size)

namespace Text.Stretch

variable {text : Text} {i j k : Nat}

theorem trans (h : text.Stretch i k) (h' : text.Stretch k j) : text.Stretch i j := by
  unfold Stretch at *
  omega

theorem of_chain {r : Nat → Nat → Prop} (hr : ∀ i j, r i j → text.Stretch i j) {n : Nat}
    (h : Chain r n i j) : text.Stretch i j := by
  induction h with
  | nil i => exact .inl rfl
  | cons h _ ih => exact (hr _ _ h).trans ih

/-- From one end of a stretch to the other there is less of the text left, unless it is empty. -/
theorem moves {r : Nat → Nat → Prop} (hr : ∀ i j, r i j → text.Stretch i j) {d : Direction}
    (h : d.orient r i j) : text.Moves d i j := by
  cases d with
  | forward =>
    have hstretch := hr i j h
    simp only [Stretch, Moves, left] at *
    omega
  | backward =>
    have hstretch := hr j i h
    simp only [Stretch, Moves, left] at *
    omega

end Text.Stretch

section

variable {flags : Flags} {text : Text}

mutual

theorem Term.Spans.stretch {t : Term} {i j : Nat} (h : t.Spans flags text i j) :
    text.Stretch i j := by
  match t with
  | .unit set =>
    obtain ⟨rfl, hany⟩ := h
    obtain ⟨u, hu, -⟩ := (Option.any_eq_true _ _).mp hany
    obtain ⟨hlt, -⟩ := Array.getElem?_eq_some_iff.mp hu
    exact .inr ⟨Nat.lt_succ_self i, hlt⟩
  | .anchor kind => exact .inl h.1
  | .look behind negated body => exact .inl h.1
  | .backReference group => exact h.elim
  | .group capture none body =>
    have hbody : body.Spans flags text i j := h
    exact hbody.stretch
  | .group capture (some q) body =>
    obtain ⟨n, -, -, hchain⟩ := h
    exact .of_chain (fun a b hab => Choice.Spans.stretch hab) hchain

theorem Branch.Spans.stretch {b : Branch} {i j : Nat} (h : b.Spans flags text i j) :
    text.Stretch i j := by
  match b with
  | .nil => exact .inl h
  | .cons t rest =>
    obtain ⟨k, ht, hrest⟩ := h
    exact (Term.Spans.stretch ht).trans (Branch.Spans.stretch hrest)

theorem Choice.Spans.stretch {c : Choice} {i j : Nat} (h : c.Spans flags text i j) :
    text.Stretch i j := by
  match c with
  | .one b =>
    have hb : b.Spans flags text i j := h
    exact hb.stretch
  | .more b rest =>
    rcases h with h | h
    · exact Branch.Spans.stretch h
    · exact Choice.Spans.stretch h

end

end

namespace Behavior

/-- Where a behavior leads to only depends on where it begins, as a relation says. -/
def Traces (f : Behavior) (r : Nat → Nat → Prop) : Prop :=
  ∀ x j, (∃ y ∈ f x, y.cursor = j) ↔ r x.cursor j

variable {text : Text} {d : Direction} {f g : Behavior} {r s : Nat → Nat → Prop}

theorem Traces.congr {r' : Nat → Nat → Prop} (h : f.Traces r) (hr : ∀ i j, r i j ↔ r' i j) :
    f.Traces r' := fun x j => (h x j).trans (hr x.cursor j)

theorem Traces.andThen (hf : f.Traces r) (hg : g.Traces s) :
    (f.andThen g).Traces fun i j => ∃ k, r i k ∧ s k j := by
  intro x j
  constructor
  · rintro ⟨z, hz, rfl⟩
    obtain ⟨y, hy, hz⟩ := List.mem_flatMap.mp hz
    exact ⟨y.cursor, (hf x _).mp ⟨y, hy, rfl⟩, (hg y _).mp ⟨z, hz, rfl⟩⟩
  · rintro ⟨k, hk, hj⟩
    obtain ⟨y, hy, rfl⟩ := (hf x k).mpr hk
    obtain ⟨z, hz, rfl⟩ := (hg y j).mpr hj
    exact ⟨z, List.mem_flatMap.mpr ⟨y, hy, hz⟩, rfl⟩

theorem Traces.orElse (hf : f.Traces r) (hg : g.Traces s) :
    (f.orElse g).Traces fun i j => r i j ∨ s i j := by
  intro x j
  show _ ↔ r x.cursor j ∨ s x.cursor j
  rw [← hf x j, ← hg x j]
  simp only [Behavior.orElse, List.mem_append, or_and_right, exists_or]

theorem Traces.pass (hf : f.Traces r) (capture : Option Nat) (span : Option (Nat × Nat)) :
    (Behavior.pass d capture span f).Traces r := by
  intro x j
  have hbody := hf (x.clear span) j
  rw [MatchState.cursor_clear] at hbody
  rw [← hbody]
  constructor
  · rintro ⟨z, hz, rfl⟩
    obtain ⟨y, hy, rfl⟩ := List.mem_map.mp hz
    exact ⟨y, hy, (MatchState.cursor_recordAny _ _ _).symm⟩
  · rintro ⟨y, hy, rfl⟩
    exact ⟨_, List.mem_map_of_mem hy, MatchState.cursor_recordAny _ _ _⟩

theorem traces_check (p : Nat → Bool) : (check p).Traces fun i j => j = i ∧ p i = true := by
  intro x j
  by_cases hp : p x.cursor = true
  · simp [check, hp, eq_comm]
  · simp [check, hp]

theorem traces_unit (set : CharSet) :
    (Behavior.unit text d set).Traces
      (d.orient fun i j => j = i + 1 ∧ text[i]?.any (set.contains ·) = true) := by
  intro x j
  cases d with
  | forward =>
    simp only [Behavior.unit, Text.read, Direction.orient]
    cases text[x.cursor]? with
    | none => simp
    | some u => by_cases hset : set.contains u = true <;> simp [hset, MatchState.moveTo, eq_comm]
  | backward =>
    simp only [Behavior.unit, Text.read, Direction.orient]
    by_cases hzero : x.cursor = 0
    · simp [hzero]
    · have hpred : x.cursor = j + 1 ↔ x.cursor - 1 = j := by omega
      rw [if_neg hzero, hpred]
      cases hu : text[x.cursor - 1]? with
      | none =>
        constructor
        · simp
        · rintro ⟨rfl, hany⟩
          simp [hu] at hany
      | some u =>
        by_cases hset : set.contains u = true
        · simp only [Option.map_some, hset, if_true, List.mem_singleton, exists_eq_left,
            MatchState.moveTo]
          constructor
          · rintro rfl
            simp [hu, hset]
          · exact And.left
        · constructor
          · simp [hset]
          · rintro ⟨rfl, hany⟩
            simp [hu, hset] at hany

/-- A look-around leads on from a position or not, whatever the captures are. -/
theorem Traces.look (hf : f.Traces r) (negated : Bool) :
    (Behavior.look negated f).Traces fun i j => j = i ∧ ((∃ k, r i k) ↔ negated = false) := by
  intro x j
  have hbody : (∃ k, r x.cursor k) ↔ (f x).head?.isSome = true := by
    constructor
    · rintro ⟨k, hk⟩
      obtain ⟨y, hy, -⟩ := (hf x k).mpr hk
      cases hl : f x with
      | nil => simp [hl] at hy
      | cons _ _ => rfl
    · intro h
      obtain ⟨y, hy⟩ := Option.isSome_iff_exists.mp h
      exact ⟨y.cursor, (hf x _).mp ⟨y, List.mem_of_head? hy, rfl⟩⟩
  show _ ↔ j = x.cursor ∧ ((∃ k, r x.cursor k) ↔ negated = false)
  rw [hbody]
  cases hhead : (f x).head? <;> cases negated <;> simp [Behavior.look, hhead, eq_comm]

/-- The outcomes of a loop are at the ends of chains of iterations. -/
theorem chain_of_mem_repeated (hf : f.Traces r) {q : Quantifier} (hq : q.InOrder) {count : Nat}
    (hcount : ∀ high, q.max = some high → count ≤ high) (x z : MatchState)
    (hz : z ∈ repeated text d q f count x) :
    ∃ n, q.min ≤ count + n ∧ (∀ high, q.max = some high → count + n ≤ high) ∧
      Chain r n x.cursor z.cursor := by
  have again : (∀ high, q.max = some high → count + 1 ≤ high) →
      (z ∈ (f x).flatMap fun y =>
        if q.min ≤ count ∧ text.left d x.cursor ≤ text.left d y.cursor then []
        else repeated text d q f (count + 1) y) →
      ∃ n, q.min ≤ count + n ∧ (∀ high, q.max = some high → count + n ≤ high) ∧
        Chain r n x.cursor z.cursor := by
    intro hnext hz
    obtain ⟨y, hy, hz⟩ := List.mem_flatMap.mp hz
    split at hz
    · simp at hz
    · obtain ⟨n, hmin, hmax, hchain⟩ := chain_of_mem_repeated hf hq hnext y z hz
      refine ⟨n + 1, by omega, fun high hh => ?_, .cons ((hf x _).mp ⟨y, hy, rfl⟩) hchain⟩
      have := hmax high hh
      omega
  have stop : q.min ≤ count → z = x →
      ∃ n, q.min ≤ count + n ∧ (∀ high, q.max = some high → count + n ≤ high) ∧
        Chain r n x.cursor z.cursor := by
    rintro hmin rfl
    exact ⟨0, hmin, hcount, .nil _⟩
  rw [repeated] at hz
  split at hz
  · rename_i hlt
    refine again (fun high hh => ?_) hz
    have := hq high hh
    omega
  · rename_i hge
    split at hz
    · exact stop (by omega) (List.mem_singleton.mp hz)
    · rename_i hmore
      have hnext : ∀ high, q.max = some high → count + 1 ≤ high := by
        intro high hh
        simp only [hh, Option.any_some, decide_eq_true_eq] at hmore
        omega
      split at hz
      · rcases List.mem_append.mp hz with hz | hz
        · exact again hnext hz
        · exact stop (by omega) (List.mem_singleton.mp hz)
      · rcases List.mem_cons.mp hz with hz | hz
        · exact stop (by omega) hz
        · exact again hnext hz
termination_by (q.min - count, text.left d x.cursor)
decreasing_by
  rw [Prod.lex_def]
  omega

/-- At the end of a chain of iterations is an outcome of the loop. Past the minimum an empty
iteration may be left out. -/
theorem exists_mem_repeated (hf : f.Traces r) (hmoves : ∀ i j, r i j → text.Moves d i j)
    {q : Quantifier} {n i j : Nat} (hchain : Chain r n i j) {count : Nat}
    (hmin : q.min ≤ count + n) (hmax : ∀ high, q.max = some high → count + n ≤ high)
    (x : MatchState) (hx : x.cursor = i) :
    ∃ z ∈ repeated text d q f count x, z.cursor = j := by
  induction hchain generalizing count x with
  | nil i =>
    refine ⟨x, ?_, hx⟩
    rw [repeated, if_neg (by omega)]
    split
    · simp
    · split <;> simp
  | @cons n i k j hstep hrest ih =>
    subst hx
    obtain ⟨y, hy, hcursor⟩ := (hf x k).mpr hstep
    by_cases hstuck : q.min ≤ count ∧ text.left d x.cursor ≤ text.left d y.cursor
    · -- The iteration stays where it is, so the rest of the chain begins here as well.
      have hsame : k = x.cursor := by
        rw [hcursor] at hstuck
        rcases hmoves _ _ hstep with hk | hlt
        · exact hk
        · omega
      refine ih (by omega) (fun high hh => ?_) x hsame.symm
      have := hmax high hh
      omega
    · have hmax' : ∀ high, q.max = some high → count + 1 + n ≤ high := by
        intro high hh
        have := hmax high hh
        omega
      obtain ⟨z, hz, hj⟩ := ih (show q.min ≤ count + 1 + n by omega) hmax' y hcursor
      have hagain : z ∈ (f x).flatMap fun y =>
          if q.min ≤ count ∧ text.left d x.cursor ≤ text.left d y.cursor then []
          else repeated text d q f (count + 1) y :=
        List.mem_flatMap.mpr ⟨y, hy, by rwa [if_neg hstuck]⟩
      refine ⟨z, ?_, hj⟩
      have hmore : q.max.any (· ≤ count) = false := by
        cases hh : q.max with
        | none => rfl
        | some high =>
          have := hmax high hh
          simp only [Option.any_some, decide_eq_false_iff_not]
          omega
      rw [repeated, hmore]
      split
      · exact hagain
      · rw [if_neg (by simp)]
        split
        · exact List.mem_append_left _ hagain
        · exact List.mem_cons_of_mem _ hagain

theorem Traces.repeated (hf : f.Traces r) (hmoves : ∀ i j, r i j → text.Moves d i j)
    {q : Quantifier} (hq : q.InOrder) :
    Behavior.Traces (Behavior.repeated text d q f 0) fun i j =>
      ∃ n, q.min ≤ n ∧ (∀ high, q.max = some high → n ≤ high) ∧ Chain r n i j := by
  intro x j
  constructor
  · rintro ⟨z, hz, rfl⟩
    obtain ⟨n, hmin, hmax, hchain⟩ :=
      chain_of_mem_repeated hf hq (fun high _ => Nat.zero_le high) x z hz
    exact ⟨n, by omega, fun high hh => by have := hmax high hh; omega, hchain⟩
  · rintro ⟨n, hmin, hmax, hchain⟩
    exact exists_mem_repeated hf hmoves hchain (by omega)
      (fun high hh => by have := hmax high hh; omega) x rfl

end Behavior

section

variable {flags : Flags} {text : Text} {context : Nat}

mutual

/-- Read in either direction, a term leads from one end of the stretches it matches to the other. -/
theorem Term.outcomes_traces (t : Term) (d : Direction) (hwf : t.WellFormed flags context)
    (href : t.hasBackReference = false) :
    (t.outcomes flags text d).Traces (d.orient (t.Spans flags text)) := by
  match t with
  | .unit set => exact Behavior.traces_unit set
  | .anchor kind =>
    refine (Behavior.traces_check fun cursor => kind.holds flags.multiline text cursor).congr ?_
    intro i j
    rw [Direction.orient_self fun i j h => h.1]
    simp [Term.Spans]
  | .backReference group => simp [Term.hasBackReference] at href
  | .look behind negated body =>
    have hbody := body.outcomes_traces (.ofLook behind) hwf.1 href
    refine (hbody.look negated).congr fun i j => ?_
    rw [Direction.orient_self fun i j h => h.1]
    simp [Term.Spans]
  | .group capture none body => exact (body.outcomes_traces d hwf.1 href).pass capture none
  | .group capture (some q) body =>
    have hbody : (Behavior.pass d capture (Term.group capture (some q) body).groupSpan
        (body.outcomes flags text d)).Traces _ :=
      (body.outcomes_traces d hwf.1 href).pass capture _
    have hmoves : ∀ i j, d.orient (body.Spans flags text) i j → text.Moves d i j := fun i j =>
      Text.Stretch.moves fun a b => Choice.Spans.stretch
    refine (hbody.repeated hmoves (hwf.2.2 q rfl)).congr fun i j => ?_
    have horient := fun n => congrFun (congrFun (d.orient_chain (body.Spans flags text) n) i) j
    simp only [← horient]
    cases d <;> rfl

theorem Branch.outcomes_traces (b : Branch) (d : Direction)
    (hwf : b.WellFormed flags context) (href : b.hasBackReference = false) :
    (b.outcomes flags text d).Traces (d.orient (b.Spans flags text)) := by
  match b with
  | .nil =>
    intro x j
    cases d <;> simp [Branch.outcomes, Branch.Spans, Direction.orient, eq_comm]
  | .cons t rest =>
    obtain ⟨htref, hrref⟩ := Bool.or_eq_false_iff.mp href
    have ht := t.outcomes_traces d hwf.1 htref
    have hrest := rest.outcomes_traces d hwf.2 hrref
    cases d with
    | forward => exact ht.andThen hrest
    | backward =>
      refine (hrest.andThen ht).congr fun i j => ?_
      simp only [Direction.orient, Branch.Spans, and_comm]

theorem Choice.outcomes_traces (c : Choice) (d : Direction)
    (hwf : c.WellFormed flags context) (href : c.hasBackReference = false) :
    (c.outcomes flags text d).Traces (d.orient (c.Spans flags text)) := by
  match c with
  | .one b => exact b.outcomes_traces d hwf href
  | .more b rest =>
    obtain ⟨hbref, hrref⟩ := Bool.or_eq_false_iff.mp href
    have hb := b.outcomes_traces d hwf.1 hbref
    have hrest := rest.outcomes_traces d hwf.2 hrref
    refine (hb.orElse hrest).congr fun i j => ?_
    cases d <;> rfl

end

end

end UnitRegex
