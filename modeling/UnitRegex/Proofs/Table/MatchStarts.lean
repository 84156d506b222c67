import UnitRegex.Proofs.Table.BackwardTable
import UnitRegex.Proofs.Table.ForwardEnds

/-!
The starts of matches. From the end of the leftmost match the backward table finds its start, and
from any position the smallest one from which a path of the automaton to the right ends there. The
two automata of a pattern are compiled apart, and a pattern spans the same stretches in both
directions.
-/

namespace UnitRegex

namespace Nfa

variable {nfa : Nfa} {text : Text}

/-- A path that begins at one position ends at another. -/
def AcceptsBetween (nfa : Nfa) (text : Text) (i stop : Nat) : Prop :=
  ∃ choices z, nfa.Accepts text ⟨i, Thread.initial nfa⟩ choices z ∧ z.cursor = stop

theorem leadsTo_iff_accepts {x : Configuration} {i : Nat} :
    nfa.LeadsTo text x i ↔ ∃ choices z, nfa.Accepts text x choices z ∧ z.cursor = i := by
  constructor
  · intro h
    induction h with
    | @stop x haccept => exact ⟨[], x, .stop haccept, rfl⟩
    | @step x y i hstep hrest ih =>
      by_cases haccept : nfa.state x.state = .accept
      · have hi := (leadsTo_of_accept haccept).mp (.step hstep hrest)
        exact ⟨[], x, .stop haccept, hi.symm⟩
      · obtain ⟨choices, z, hpath, hz⟩ := ih
        obtain ⟨choice, hchoice⟩ := List.getElem?_of_mem hstep
        exact ⟨choice :: choices, z, .step haccept hchoice hpath, hz⟩
  · rintro ⟨choices, z, hpath, rfl⟩
    induction hpath with
    | stop haccept => exact .stop haccept
    | step _ hstep _ ih => exact .step (List.mem_of_getElem? hstep) ih

end Nfa

namespace Pattern

variable {p : Pattern} {text : Text}

/-- A pattern without back-references matches the stretches that it spans. -/
theorem outcomes_traces (hwf : p.WellFormed) (href : p.hasBackReference = false) :
    (p.outcomes text).Traces (p.root.Spans p.flags text) :=
  p.root.outcomes_traces .forward hwf href

theorem Compiled.acceptsBetween_iff_spans {nfa : Nfa} (h : p.Compiled nfa) (hwf : p.WellFormed)
    (href : p.hasBackReference = false) {i stop : Nat} (hi : i ≤ text.size) :
    nfa.AcceptsBetween text i stop ↔ p.root.Spans p.flags text i stop := by
  rw [Nfa.AcceptsBetween, ← Nfa.leadsTo_iff_accepts]
  have hleads :=
    h.realizes.leadsTo (x := ⟨i, Thread.initial nfa⟩) hi (by simp [Thread.initial]) stop
  exact hleads.trans (outcomes_traces hwf href _ stop)

/-- No stretch starts where a pattern does not match. -/
theorem not_spans_of_matchAt? (hwf : p.WellFormed) (href : p.hasBackReference = false) {i : Nat}
    (hnone : p.matchAt? text i = none) (stop : Nat) : ¬p.root.Spans p.flags text i stop := by
  intro hspans
  obtain ⟨y, hy, -⟩ := (outcomes_traces hwf href ⟨i, Slots.unset p.groupCount⟩ stop).mpr hspans
  rw [matchAt?, List.head?_eq_none_iff] at hnone
  rw [hnone] at hy
  exact absurd hy List.not_mem_nil

theorem spans_of_matchAt? (hwf : p.WellFormed) (href : p.hasBackReference = false) {i : Nat}
    {y : MatchState} (hy : p.matchAt? text i = some y) : p.root.Spans p.flags text i y.cursor :=
  (outcomes_traces hwf href ⟨i, Slots.unset p.groupCount⟩ y.cursor).mp
    ⟨y, List.mem_of_head? hy, rfl⟩

namespace CompiledBack

variable {back : Nfa} (h : p.CompiledBack back) {maxStates : Nat} {dfa : Dfa}
  (htable : back.backwardTable maxStates = .ok dfa) {start stop : Nat}
include h htable

/-- The backward table finds the smallest start of a stretch that ends at a position. -/
theorem firstStart?_eq_some_iff (hstart : start ≤ stop) (hstop : stop ≤ text.size) {i : Nat} :
    dfa.firstStart? text (dfa.entry (BackwardSubset.entryFor stop text.size)) stop start = some i ↔
      start ≤ i ∧ i ≤ stop ∧ p.root.Spans p.flags text i stop ∧
        ∀ j, start ≤ j → j < i → ¬p.root.Spans p.flags text j stop := by
  rw [h.firstStart?_eq htable hstart hstop, findSome?_range'_eq_some_iff]
  simp only [Option.map_eq_some_iff, Option.map_eq_none_iff, found?_eq_some_iff,
    found?_eq_none_iff]
  constructor
  · rintro ⟨_, hle, hlt, ⟨-, hspans, rfl⟩, hnone⟩
    exact ⟨hle, by omega, hspans, hnone⟩
  · rintro ⟨hle, hi, hspans, hnone⟩
    exact ⟨i, hle, by omega, ⟨(), hspans, rfl⟩, hnone⟩

theorem firstStart?_eq_none_iff (hstart : start ≤ stop) (hstop : stop ≤ text.size) :
    dfa.firstStart? text (dfa.entry (BackwardSubset.entryFor stop text.size)) stop start = none ↔
      ∀ i, start ≤ i → i ≤ stop → ¬p.root.Spans p.flags text i stop := by
  rw [h.firstStart?_eq htable hstart hstop, List.findSome?_eq_none_iff]
  simp only [Option.map_eq_none_iff, found?_eq_none_iff, List.mem_range'_1]
  refine forall_congr' fun i => ⟨fun hall hle hi => hall ⟨hle, by omega⟩, fun hall hmem => ?_⟩
  exact hall hmem.1 (by omega)

/-- The leftmost match starts at the smallest start of its end. -/
theorem firstStart?_of_firstMatch (hwf : p.WellFormed) (href : p.hasBackReference = false) {i : Nat}
    {y : MatchState} (hmatch : p.FirstMatch text start i y) (hi : i ≤ y.cursor)
    (hstop : y.cursor ≤ text.size) :
    dfa.firstStart? text (dfa.entry (BackwardSubset.entryFor y.cursor text.size)) y.cursor start =
      some i :=
  (h.firstStart?_eq_some_iff htable (Nat.le_trans hmatch.start_le hi) hstop).mpr
    ⟨hmatch.start_le, hi, spans_of_matchAt? hwf href hmatch.isMatch, fun j hj hlt =>
      not_spans_of_matchAt? hwf href (hmatch.earlier j hj hlt) _⟩

end CompiledBack

end Pattern

theorem Source.compiledBack_of_build {s : Source} {p : Pattern} {q : NumberedPattern}
    {config : Config} {back : Nfa} (hparse : s.parse = .ok p)
    (hnumber : NumberedPattern.number { p with } = .ok q)
    (hback : Nfa.build q config .backward = .ok back) :
    p.CompiledBack back ∧ p.hasBackReference = false := by
  have hq : q.toPattern = p := by
    cases hnumber
    rfl
  have hwf : q.toPattern.WellFormed := hq ▸ (Source.wellFormed_of_parse hparse).1
  exact hq ▸ ⟨Nfa.compiledBack_of_build hwf hback, (Nfa.run_of_build hback).1⟩

/-- From the end that the forward table finds the backward table finds the start of the leftmost
match, and from any position on the smallest one where a path to the right starts that ends
there. -/
theorem Nfa.firstStart?_iff_acceptsBetween {s : Source} {p : Pattern} {q : NumberedPattern}
    {config : Config} {nfa back : Nfa} {maxStates : Nat} {forward backward : Dfa}
    (hparse : s.parse = .ok p) (hnumber : NumberedPattern.number { p with } = .ok q)
    (hbuild : Nfa.build q config .forward = .ok nfa)
    (hback : Nfa.build q config .backward = .ok back) (hbehind : nfa.lookBehinds = [])
    (hahead : nfa.lookAheads = []) (hforward : nfa.forwardTable maxStates = .ok forward)
    (hbackward : back.backwardTable maxStates = .ok backward) (text : Text) (start stop : Nat)
    (hstart : start ≤ text.size) :
    (forward.lastEnd? text
        (forward.entry (ForwardSubset.entryFor nfa.context p.flags.sticky start))
        (start - min start nfa.context) = some stop →
      ∃ slots i, nfa.findSlots text start text.size p.flags.sticky = some slots ∧
        slots.start 0 = Int.ofNat i ∧ slots.stop 0 = Int.ofNat stop ∧
        backward.firstStart? text (backward.entry (BackwardSubset.entryFor stop text.size)) stop
          start = some i) ∧
    (start ≤ stop → stop ≤ text.size →
      (∀ i, backward.firstStart? text (backward.entry (BackwardSubset.entryFor stop text.size)) stop
          start = some i ↔
        start ≤ i ∧ i ≤ stop ∧ nfa.AcceptsBetween text i stop ∧
          ∀ j, start ≤ j → j < i → ¬nfa.AcceptsBetween text j stop) ∧
      (backward.firstStart? text (backward.entry (BackwardSubset.entryFor stop text.size)) stop
          start = none ↔
        ∀ i, start ≤ i → i ≤ stop → ¬nfa.AcceptsBetween text i stop)) := by
  have hcompiled := Source.compiled_of_build hparse hnumber hbuild
  obtain ⟨hcompiledBack, href⟩ := Source.compiledBack_of_build hparse hnumber hback
  obtain ⟨hwf, hgroups⟩ := Source.wellFormed_of_parse hparse
  constructor
  · intro hend
    have hlast := hcompiled.lastEnd?_eq (by simp [hbehind])
      (hcompiled.looksFit (by simp [hahead])) hforward hstart
    rw [hlast, Option.map_eq_some_iff] at hend
    obtain ⟨y, hy, rfl⟩ := hend
    obtain ⟨i, hmatch, -⟩ := Pattern.exists_of_leftmost? hstart hy
    obtain ⟨hi, hsize, -, hfirst, hstop⟩ := hcompiled.bounds hgroups hmatch.le_size hmatch.isMatch
    have hslots := hcompiled.findSlots_eq_leftmost? hgroups hstart
    rw [hy, Option.map_some] at hslots
    exact ⟨y.slots, i, hslots, hfirst, hstop,
      hcompiledBack.firstStart?_of_firstMatch hbackward hwf href hmatch hi hsize⟩
  · intro hle hsize
    have hspans : ∀ i, i ≤ stop → (p.root.Spans p.flags text i stop ↔
        nfa.AcceptsBetween text i stop) := fun i hi =>
      (hcompiled.acceptsBetween_iff_spans hwf href (Nat.le_trans hi hsize)).symm
    refine ⟨fun i => ?_, ?_⟩
    · rw [hcompiledBack.firstStart?_eq_some_iff hbackward hle hsize]
      refine and_congr_right fun _ => and_congr_right fun hi => and_congr (hspans i hi) ?_
      refine forall_congr' fun j => forall_congr' fun _ => forall_congr' fun hlt => ?_
      exact not_congr (hspans j (by omega))
    · rw [hcompiledBack.firstStart?_eq_none_iff hbackward hle hsize]
      refine forall_congr' fun i => forall_congr' fun _ => forall_congr' fun hi => ?_
      exact not_congr (hspans i hi)

/-- The match of `(?:a?){2}b` that ends behind the fourth unit of `caab` starts at the second
one. -/
theorem Nfa.firstStart?_iff_acceptsBetween_optional :
    ∃ p q nfa back forward backward, Source.parse ⟨"(?:a?){2}b", {}, {}⟩ = .ok p ∧
      NumberedPattern.number { p with } = .ok q ∧ Nfa.build q {} .forward = .ok nfa ∧
      Nfa.build q {} .backward = .ok back ∧ nfa.lookBehinds = [] ∧ nfa.lookAheads = [] ∧
      nfa.forwardTable 100 = .ok forward ∧ back.backwardTable 100 = .ok backward ∧
      backward.firstStart? #[99, 97, 97, 98] (backward.entry (BackwardSubset.entryFor 4 4)) 4 0 =
        some 1 := by
  let text : Text := #[99, 97, 97, 98]
  let p : Pattern :=
    ⟨.one (.cons (.group none (some ⟨2, some 2, true⟩)
      (.one (.cons (.group none (some ⟨0, some 1, true⟩)
        (.one (.cons (.unit (.single 97)) .nil))) .nil)))
      (.cons (.unit (.single 98)) .nil)), {}, 1, [], 0⟩
  have hparse : Source.parse ⟨"(?:a?){2}b", {}, {}⟩ = .ok p := by cbv
  have hok : ((Nfa.build ⟨p, true⟩ {} .forward).toOption.any fun nfa =>
      (Nfa.build ⟨p, true⟩ {} .backward).toOption.any fun back =>
      (nfa.forwardTable 100).toOption.any fun forward =>
      (back.backwardTable 100).toOption.any fun _ =>
        decide (nfa.lookBehinds = [] ∧ nfa.lookAheads = [] ∧
          nfa.findSlots text 0 4 false = some #[1, 4] ∧
          forward.lastEnd? text (forward.entry (ForwardSubset.entryFor nfa.context false 0)) 0 =
            some 4)) = true := by cbv
  obtain ⟨nfa, hbuild, hok⟩ := exists_eq_ok_of_any hok
  obtain ⟨back, hback, hok⟩ := exists_eq_ok_of_any hok
  obtain ⟨forward, hforward, hok⟩ := exists_eq_ok_of_any hok
  obtain ⟨backward, hbackward, hok⟩ := exists_eq_ok_of_any hok
  obtain ⟨hbehind, hahead, hslots, hend⟩ := of_decide_eq_true hok
  obtain ⟨slots, i, hfind, hfirst, -, hstart⟩ := (Nfa.firstStart?_iff_acceptsBetween hparse
    (q := ⟨p, true⟩) rfl hbuild hback hbehind hahead hforward hbackward text 0 4
    (Nat.zero_le _)).1 hend
  obtain rfl := Option.some.inj (hslots.symm.trans hfind)
  obtain rfl : i = 1 := (Int.ofNat.inj hfirst).symm
  exact ⟨p, ⟨p, true⟩, nfa, back, forward, backward, hparse, rfl, hbuild, hback, hbehind, hahead,
    hforward, hbackward, hstart⟩

end UnitRegex
