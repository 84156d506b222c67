import Mathlib
import UnitRegex.Proofs.Automaton.Installed
import UnitRegex.Proofs.Pattern.Parsed

/-!
Iterations that have to move. The copy of a body that can match empty takes exactly the paths away
that read no unit, and leaves the others in their order.
-/

namespace UnitRegex

variable {plan : BuildPlan} {text : Text}

/-- Inside of a text, reading on means being elsewhere. -/
theorem Text.left_lt_iff_ne {d : Direction} {i j : Nat} (hi : i ≤ text.size) (hj : j ≤ text.size)
    (hle : text.left d i ≤ text.left d j) : text.left d i < text.left d j ↔ i ≠ j := by
  cases d <;> simp only [Text.left] at hle ⊢ <;> omega

/-- What a fragment leads to is in the text, and not in front of where it was entered. -/
theorem Fragment.forall_mem {nfa : Nfa} {f : Behavior} {n : Bool} {clo chi lo hi next : Nat}
    {entries : List Nat} (h : Fragment nfa text f n clo chi lo hi entries next)
    {x : Configuration} (hx : x.cursor ≤ text.size) (hcounts : chi ≤ x.thread.counts.length) :
    ∀ y ∈ f x.matchState,
      y.cursor ≤ text.size ∧ text.left nfa.direction y.cursor ≤ text.left nfa.direction x.cursor := by
  obtain ⟨after, hmap, hleaves, hunfolds⟩ := h.yields x hx hcounts
  intro y hy
  rw [← hmap] at hy
  obtain ⟨z, hz, rfl⟩ := List.mem_map.mp hy
  refine ⟨(hleaves z hz).cursor, hunfolds.left_le (fun w hw => ?_) z hz⟩
  obtain ⟨e, -, rfl⟩ := List.mem_map.mp hw
  exact Nat.le_refl _

/-- An iteration that has to move arrives behind itself as a plain iteration does that reads a unit,
in the same order, and no walk without a unit leads through it. -/
theorem BuildPlan.arrives_movingIteration {s : Source} {p : Pattern} (hparse : s.parse = .ok p)
    {capture : Option Nat} {q : Quantifier} {body : Choice}
    (hgroup : .group capture (some q) body ∈ p.root.subterms)
    (href : body.hasBackReference = false) (hmulti : plan.multiline = p.flags.multiline)
    {id next entry entry' : Nat} {before after before' after' : Draft} {nfa nfa' : Nfa}
    (hmoving : nfa.Installs plan (plan.movingIteration id
      (plan.cleared (.group capture (some q) body)) body.nullable (plan.pass id capture body))
      next before after entry)
    (hplain : nfa'.Installs plan (plan.iteration id
      (plan.cleared (.group capture (some q) body)) (plan.pass id capture body))
      next before' after' entry') (text : Text) :
    (∀ x x' : Configuration, x.cursor ≤ text.size → x'.matchState = x.matchState →
      after.counters ≤ x.thread.counts.length → after'.counters ≤ x'.thread.counts.length →
      ∃ ends, nfa'.Arrives text next (x'.goTo entry') ends ∧
        nfa.Arrives text next (x.goTo entry) (ends.filter fun y => y.cursor ≠ x.cursor)) ∧
    ∀ counts counts', ¬nfa.EpsilonWalk (entry, counts) (next, counts') := by
  have hwf := (Source.wellFormed_of_parse hparse).1.of_mem_subterms hgroup
  obtain ⟨c, f, hf, hconsumes⟩ := plan.exists_emits_iteration hmulti hwf href text
  have hmoves : Emits c plan.direction text (plan.movingIteration id
      (plan.cleared (.group capture (some q) body)) body.nullable (plan.pass id capture body) next)
      next (.moving text plan.direction f) false := Emits.movingIteration (hf id) hconsumes
  refine ⟨fun x x' hx hsame hcounts hcounts' => ?_, hmoving.not_epsilonWalk hmoves⟩
  have hcursor : x'.cursor = x.cursor := congrArg MatchState.cursor hsame
  have hx' : x'.cursor ≤ text.size := hcursor ▸ hx
  refine ⟨f x'.matchState, hplain.arrives (hf id next) hx' hcounts', ?_⟩
  have hfilter : Behavior.moving text plan.direction f x.matchState =
      (f x'.matchState).filter fun y => y.cursor ≠ x.cursor := by
    rw [Behavior.moving, ← hsame]
    refine List.filter_congr fun y hy => ?_
    obtain ⟨hle, hleft⟩ := (hplain.fragment (hf id next)).forall_mem hx' hcounts' y hy
    rw [hplain.direction, hcursor] at hleft
    rw [show x'.matchState.cursor = x.cursor from hcursor, decide_eq_decide]
    exact Text.left_lt_iff_ne hle hx hleft
  rw [← hfilter]
  exact hmoving.arrives hmoves hx hcounts

/-- An iteration of `(?:(a*)|b)*` on `ab`: its body has a loop of its own, which gets a copy too. -/
theorem BuildPlan.arrives_movingIteration_nested :
    ∃ (p : Pattern) (after after' : Draft) (x : Configuration),
      Source.parse ⟨"(?:(a*)|b)*", {}, {}⟩ = .ok p ∧ x.matchState = ⟨0, Slots.unset p.groupCount⟩ ∧
      (∃ ends, (after'.toNfa .forward).Arrives #[97, 98] 0 (x.goTo 7) ends ∧
        (after.toNfa .forward).Arrives #[97, 98] 0 (x.goTo 15)
          (ends.filter fun y => y.cursor ≠ 0)) ∧
      ¬(after.toNfa .forward).EpsilonWalk (15, []) (0, []) := by
  let q : Quantifier := ⟨0, none, true⟩
  let inner : Term := .group none (some q) (.one (.cons (.unit (.single 97)) .nil))
  let body : Choice := .more (.cons (.group (some 1) none (.one (.cons inner .nil))) .nil)
    (.one (.cons (.unit (.single 98)) .nil))
  let p : Pattern := ⟨.one (.cons (.group none (some q) body) .nil), {}, 2, [], 0⟩
  let plan : BuildPlan := ⟨{}, .forward, false⟩
  let before : Draft := { nodes := #[⟨.accept, 0⟩] }
  have hparse : Source.parse ⟨"(?:(a*)|b)*", {}, {}⟩ = .ok p := by cbv
  have hmoving : ((plan.movingIteration 1 (plan.cleared (.group none (some q) body)) body.nullable
      (plan.pass 1 none body) 0 before).toOption.any fun r =>
        r.1 = 15 && r.2.counters = 0) = true := by cbv
  have hplain : ((plan.iteration 1 (plan.cleared (.group none (some q) body))
      (plan.pass 1 none body) 0 before).toOption.any fun r =>
        r.1 = 7 && r.2.counters = 0) = true := by cbv
  obtain ⟨⟨entry, after⟩, hmoving, hentry⟩ := exists_eq_ok_of_any hmoving
  obtain ⟨⟨entry', after'⟩, hplain, hentry'⟩ := exists_eq_ok_of_any hplain
  obtain ⟨rfl, hcounters⟩ : entry = 15 ∧ after.counters = 0 := by simpa using hentry
  obtain ⟨rfl, hcounters'⟩ : entry' = 7 ∧ after'.counters = 0 := by simpa using hentry'
  have hgroup : Term.group none (some q) body ∈ p.root.subterms :=
    List.mem_cons_of_mem _ List.mem_cons_self
  obtain ⟨harrives, hwalk⟩ := arrives_movingIteration hparse hgroup (by decide) rfl
    ⟨hmoving, by decide, rfl, after.extends_toNfa .forward _⟩
    ⟨hplain, by decide, rfl, after'.extends_toNfa .forward _⟩ #[97, 98]
  let x : Configuration := ⟨0, ⟨0, [], Slots.unset 2⟩⟩
  exact ⟨p, after, after', x, hparse, rfl, harrives x x (Nat.zero_le _) rfl
    (Nat.le_of_eq hcounters) (Nat.le_of_eq hcounters'), hwalk [] []⟩

end UnitRegex
