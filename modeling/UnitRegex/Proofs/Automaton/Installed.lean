import Mathlib.Logic.Relation
import UnitRegex.Proofs.Automaton.Arrivals
import UnitRegex.Proofs.Automaton.Captureless
import UnitRegex.Proofs.Automaton.Compile
import UnitRegex.Proofs.Pattern.Subterms

/-!
Constructions whose states stand in an automaton. What a construction emits decides with which
captures the paths from its entry arrive at the state behind it, and whether that state can be
reached without a unit. Every term of a pattern emits something, in either direction.
-/

namespace UnitRegex

variable {context : Nat} {text : Text} {plan : BuildPlan} {next : Nat} {f : Behavior} {n : Bool}

/-! ### Walks without a unit -/

/-- A walk that reads nothing, whatever the guards on it say. -/
def Nfa.EpsilonWalk (nfa : Nfa) : Nat × List Nat → Nat × List Nat → Prop :=
  Relation.ReflTransGen fun a b => b ∈ nfa.epsilon a

namespace Nfa

variable {nfa nfa' : Nfa}

theorem Settles.walk {a b : Nat × List Nat} (h : nfa.Settles (fun _ => False) a)
    (hwalk : nfa.EpsilonWalk a b) : nfa.Settles (fun _ => False) b := by
  induction hwalk with
  | refl => exact h
  | tail _ hstep ih =>
    cases ih with
    | stop hfalse => exact hfalse.elim
    | go hgo => exact hgo _ hstep

/-- Where walks come to an end no step leads back to where it started. -/
theorem Settles.not_mem_epsilon {a : Nat × List Nat} (h : nfa.Settles (fun _ => False) a) :
    a ∉ nfa.epsilon a := by
  induction h with
  | stop hfalse => exact hfalse.elim
  | go _ ih => exact fun hmem => ih _ hmem hmem

/-- Up to the state behind it a walk inside of a stretch is one in every automaton with the same
states there. -/
theorem EpsilonWalk.transfer {lo hi next : Nat}
    (hsame : ∀ s, lo ≤ s → s < hi → nfa'.state s = nfa.state s)
    (hclosed : ∀ s, lo ≤ s → s < hi → ∀ t ∈ nfa.successors s, t = next ∨ (lo ≤ t ∧ t < hi))
    {a b : Nat × List Nat} (hwalk : nfa.EpsilonWalk a b) (hb : b.1 = next)
    (ha : a.1 = next ∨ (lo ≤ a.1 ∧ a.1 < hi)) : ∃ counts, nfa'.EpsilonWalk a (next, counts) := by
  induction hwalk using Relation.ReflTransGen.head_induction_on with
  | refl => exact ⟨b.2, hb ▸ .refl⟩
  | @head a c hstep _ ih =>
    rcases ha with rfl | ⟨hlo, hhi⟩
    · exact ⟨a.2, .refl⟩
    · obtain ⟨counts, hrest⟩ := ih (hclosed a.1 hlo hhi c.1 (state_mem_successors hstep))
      have hstep' : c ∈ nfa'.epsilon a := by
        rw [epsilon, hsame a.1 hlo hhi]
        exact hstep
      exact ⟨counts, .head hstep' hrest⟩

end Nfa

/-- The states and bodies of a draft as an automaton, in which nothing is known of entries. -/
def Draft.toNfa (draft : Draft) (d : Direction) : Nfa where
  nodes := draft.nodes
  start := 0
  anchored := []
  unanchored := []
  lookBehinds := draft.lookBehinds
  lookAheads := draft.lookAheads
  counters := draft.counters
  groupCount := 0
  direction := d

theorem Draft.extends_toNfa (draft : Draft) (d : Direction) (lo : Nat) :
    (draft.toNfa d).Extends draft lo :=
  ⟨fun _ _ _ => rfl, List.prefix_refl _, List.prefix_refl _⟩

/-- No walk leads from the entry of something that cannot match empty to the state behind it. -/
theorem Emitted.not_epsilonWalk {d : Direction} {before after : Draft} {e : Nat}
    (h : Emitted context d text before after [e] next f false) (hnext : next < before.nodes.size)
    {nfa : Nfa} (hd : nfa.direction = d) (hext : nfa.Extends after before.nodes.size)
    (counts counts' : List Nat) : ¬nfa.EpsilonWalk (e, counts) (next, counts') := by
  intro hwalk
  -- Walks end as well in an automaton in which the state behind leads to itself.
  let looped : Draft := { after with
    nodes := after.nodes.modify next ({ · with state := .split [next] }) }
  have hle := h.grows.size_le
  have hloop : (looped.toNfa d).Extends looped next := looped.extends_toNfa d next
  have hstate : (looped.toNfa d).state next = .split [next] :=
    hloop.state_of_put (Nat.le_refl next) (by omega)
  have hext' : (looped.toNfa d).Extends after before.nodes.size :=
    (looped.extends_toNfa d before.nodes.size).of_put hnext
  have hfragment := h.fragment nfa hd hext
  have hsame : ∀ s, before.nodes.size ≤ s → s < after.nodes.size →
      (looped.toNfa d).state s = nfa.state s := by
    intro s hlo hhi
    have hnode := Array.getElem?_eq_getElem hhi
    rw [hext.state hlo hnode, hext'.state hlo hnode]
  obtain ⟨counts'', hwalk'⟩ := hwalk.transfer hsame hfragment.closed rfl
    (hfragment.entries_in e (by simp))
  have hsettles := ((h.fragment _ rfl hext').moves rfl e (by simp) counts).walk hwalk'
  exact hsettles.not_mem_epsilon (by simp [Nfa.epsilon, hstate])

/-! ### Constructions in an automaton -/

/-- An automaton has the states that a construction in front of a state has added. -/
structure Nfa.Installs (nfa : Nfa) (plan : BuildPlan) (build : Nat → Build Nat) (next : Nat)
    (before after : Draft) (entry : Nat) : Prop where
  run : build next before = .ok (entry, after)
  next_lt : next < before.nodes.size
  direction : nfa.direction = plan.direction
  states : nfa.Extends after before.nodes.size

namespace Nfa.Installs

variable {nfa : Nfa} {build : Nat → Build Nat} {before after : Draft} {entry : Nat}
  {x : Configuration}

theorem fragment (h : nfa.Installs plan build next before after entry)
    (hf : Emits context plan.direction text (build next) next f n) :
    Fragment nfa text f n before.counters after.counters before.nodes.size after.nodes.size [entry]
      next :=
  (hf _ _ _ h.run h.next_lt).fragment nfa h.direction h.states

/-- The paths from the entry arrive behind the construction as the behavior says. -/
theorem arrives (h : nfa.Installs plan build next before after entry)
    (hf : Emits context plan.direction text (build next) next f n) (hx : x.cursor ≤ text.size)
    (hcounts : after.counters ≤ x.thread.counts.length) :
    nfa.Arrives text next (x.goTo entry) (f x.matchState) :=
  ((h.fragment hf).yields x hx hcounts).arrives (.inl h.next_lt)

theorem not_epsilonWalk (h : nfa.Installs plan build next before after entry)
    (hf : Emits context plan.direction text (build next) next f false) (counts counts' : List Nat) :
    ¬nfa.EpsilonWalk (entry, counts) (next, counts') :=
  (hf _ _ _ h.run h.next_lt).not_epsilonWalk h.next_lt h.direction h.states counts counts'

end Nfa.Installs

/-! ### Terms in either direction -/

theorem BuildPlan.captures_or (plan : BuildPlan) :
    (plan.direction = .forward ∧ plan.captures = true) ∨
      (plan.direction = .backward ∧ plan.captures = false) := by
  cases hd : plan.direction <;> simp [captures, hd]

/-- A term is compiled to a fragment in either direction. To the left it is that of the term without
its captures. -/
theorem Term.exists_emits {flags : Flags} (hmulti : plan.multiline = flags.multiline) {t : Term}
    (hwf : t.WellFormed flags context) (href : t.hasBackReference = false) (text : Text) :
    ∃ (c : Nat) (f : Behavior),
      (∀ node next, Emits c plan.direction text (t.compile plan node next) next f t.nullable) ∧
      (t.nullable = false → f.Consumes text plan.direction) := by
  rcases plan.captures_or with ⟨-, hcaptures⟩ | ⟨hd, -⟩
  · exact ⟨context, t.outcomes flags text plan.direction,
      t.compile_emits hmulti hwf href (.inl hcaptures), t.outcomes_consume flags text plan.direction⟩
  · obtain ⟨c, hwf'⟩ := hwf.exists_withoutCaptures
    have href' := t.hasBackReference_withoutCaptures.trans href
    refine ⟨c, t.withoutCaptures.outcomes flags text plan.direction, fun node next => ?_, ?_⟩
    · rw [← t.compile_withoutCaptures hd, ← t.nullable_withoutCaptures]
      exact t.withoutCaptures.compile_emits hmulti hwf' href' (.inr t.groupSpan_withoutCaptures)
        node next
    · rw [← t.nullable_withoutCaptures]
      exact t.withoutCaptures.outcomes_consume flags text plan.direction

namespace BuildPlan

/-- One pass through a group, compiled in front of a state. -/
def pass (plan : BuildPlan) (id : Nat) (capture : Option Nat) (body : Choice) : Nat → Build Nat :=
  plan.groupPass id capture fun exit => body.compile plan (id + 1) exit

/-- The captures that an iteration of a group unsets. To the left there are none. -/
def cleared (plan : BuildPlan) (group : Term) : Option (Nat × Nat) :=
  if plan.captures then group.groupSpan else none

/-- An iteration of a quantified group is compiled to a fragment. -/
theorem exists_emits_iteration {flags : Flags} (hmulti : plan.multiline = flags.multiline)
    {capture : Option Nat} {q : Quantifier} {body : Choice}
    (hwf : (Term.group capture (some q) body).WellFormed flags context)
    (href : body.hasBackReference = false) (text : Text) :
    ∃ (c : Nat) (f : Behavior),
      (∀ id next, Emits c plan.direction text
        (plan.iteration id (plan.cleared (.group capture (some q) body)) (plan.pass id capture body)
          next) next f body.nullable) ∧
      (body.nullable = false → f.Consumes text plan.direction) := by
  obtain ⟨hbody, hspan, -⟩ := hwf
  have hwf' : (Term.group capture none body).WellFormed flags context := ⟨hbody, hspan, by simp⟩
  obtain ⟨c, f, hf, hconsumes⟩ := Term.exists_emits hmulti hwf' href text
  have hclear : Behavior.Advances text plan.direction fun x =>
      [x.clear (plan.cleared (.group capture (some q) body))] := by
    intro x y hy
    obtain rfl := List.mem_singleton.mp hy
    rw [MatchState.cursor_clear]
  exact ⟨c, _, fun id next => Emits.iteration fun next => hf id next,
    fun hnull => Behavior.Consumes.andThen_right hclear (hconsumes hnull)⟩

end BuildPlan

end UnitRegex
