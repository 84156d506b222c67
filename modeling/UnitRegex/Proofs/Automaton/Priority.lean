import Mathlib
import UnitRegex.Proofs.Automaton.Whole
import UnitRegex.Proofs.Pattern.Parsed

/-!
Accepting paths in order of priority. A path is the list of the choices made on it, and the
preferred one is the least in dictionary order. For the automaton of a pattern it ends where trying
the pattern ends, with the same captures.
-/

namespace UnitRegex

namespace Nfa

/-- A path from one configuration to an accepting one, by the number of the way taken at each
step. -/
inductive Accepts (nfa : Nfa) (text : Text) : Configuration → List Nat → Configuration → Prop
  | stop {x : Configuration} (h : nfa.state x.state = .accept) : Accepts nfa text x [] x
  | step {x y z : Configuration} {choice : Nat} {choices : List Nat}
    (haccept : nfa.state x.state ≠ .accept)
    (hstep : (nfa.steps text text.size x)[choice]? = some y)
    (hrest : Accepts nfa text y choices z) : Accepts nfa text x (choice :: choices) z

/-- An accepting path to which no other is preferred. -/
structure Prefers (nfa : Nfa) (text : Text) (x : Configuration) (choices : List Nat)
    (z : Configuration) : Prop where
  accepts : nfa.Accepts text x choices z
  least : ∀ others y, nfa.Accepts text x others y →
    choices = others ∨ List.Lex (· < ·) choices others

variable {nfa : Nfa} {text : Text}

namespace Accepts

/-- The choices determine the path. -/
theorem unique {x y z : Configuration} {choices : List Nat} (h : nfa.Accepts text x choices y)
    (h' : nfa.Accepts text x choices z) : y = z := by
  induction h with
  | stop _ =>
    cases h'
    rfl
  | step _ hstep _ ih =>
    cases h' with
    | step _ hstep' hrest' =>
      rw [hstep] at hstep'
      obtain rfl := Option.some.inj hstep'
      exact ih hrest'

/-- Of two paths that are preferred to one another both end at the same configuration. -/
theorem unique_of_least {x y z : Configuration} {choices others : List Nat}
    (h : nfa.Accepts text x choices y) (h' : nfa.Accepts text x others z)
    (hle : choices = others ∨ List.Lex (· < ·) choices others)
    (hge : others = choices ∨ List.Lex (· < ·) others choices) : y = z := by
  rcases hle with rfl | hlt
  · exact h.unique h'
  · rcases hge with rfl | hgt
    · exact h.unique h'
    · exact absurd hgt (asymm hlt)

end Accepts

theorem Prefers.unique {x y z : Configuration} {choices others : List Nat}
    (h : nfa.Prefers text x choices y) (h' : nfa.Prefers text x others z) : y = z :=
  h.accepts.unique_of_least h'.accepts (h.least _ _ h'.accepts) (h'.least _ _ h.accepts)

/-- With a limit no way is left where no path ends at a configuration that counts, and elsewhere the
same ways as without one. -/
def Limits (nfa : Nfa) (text : Text) (stop : Nat) (counts : Configuration → Prop) : Prop :=
  ∀ x, nfa.steps text stop x = nfa.steps text text.size x ∨
    (nfa.steps text stop x = [] ∧ ∀ y ∈ nfa.steps text text.size x, ∀ choices z,
      nfa.Accepts text y choices z → ¬counts z)

theorem limits_size (nfa : Nfa) (text : Text) : nfa.Limits text text.size fun _ => True :=
  fun _ => .inl rfl

section

variable {stop : Nat} {counts : Configuration → Prop} (h : nfa.Grounded)
  (hlimits : nfa.Limits text stop counts)
include hlimits

theorem not_counts_of_first_eq_none {x z : Configuration} {choices : List Nat}
    (hfirst : nfa.first h text stop x = none) (haccepts : nfa.Accepts text x choices z) :
    ¬counts z := by
  induction haccepts with
  | stop haccept => simp [first_of_accept h haccept] at hfirst
  | step haccept hstep hrest ih =>
    have hmem := List.mem_of_getElem? hstep
    rcases hlimits _ with hsame | ⟨-, hfar⟩
    · rw [first_eq_findSome? h haccept, List.findSome?_eq_none_iff, hsame] at hfirst
      exact ih (hfirst _ hmem)
    · exact hfar _ hmem _ _ hrest

/-- What the search finds first ends a path to which none is preferred that counts. -/
theorem exists_least_of_first {x z : Configuration} (hfirst : nfa.first h text stop x = some z) :
    ∃ choices, nfa.Accepts text x choices z ∧ ∀ others y, nfa.Accepts text x others y → counts y →
      choices = others ∨ List.Lex (· < ·) choices others := by
  induction x using (h.wellFounded text).induction with
  | _ x ih =>
    by_cases haccept : nfa.state x.state = .accept
    · rw [first_of_accept h haccept] at hfirst
      obtain rfl := Option.some.inj hfirst
      refine ⟨[], .stop haccept, fun others y _ _ => ?_⟩
      cases others with
      | nil => exact .inl rfl
      | cons choice rest => exact .inr .nil
    · rw [first_eq_findSome? h haccept] at hfirst
      obtain ⟨front, y, back, hsteps, hy, hfront⟩ := List.findSome?_eq_some_iff.mp hfirst
      have hsame : nfa.steps text text.size x = front ++ y :: back := by
        rcases hlimits x with hsame | ⟨hnone, -⟩
        · rw [← hsame, hsteps]
        · simp [hnone] at hsteps
      have hget : (nfa.steps text text.size x)[front.length]? = some y := by
        rw [hsame]
        simp
      obtain ⟨choices, hpath, hleast⟩ :=
        ih y (stepOrder_of_mem_steps (List.mem_of_getElem? hget)) hy
      refine ⟨front.length :: choices, .step haccept hget hpath, fun others w hothers hw => ?_⟩
      cases hothers with
      | stop haccept' => exact absurd haccept' haccept
      | @step _ v _ choice rest _ hstep hrest =>
        rcases Nat.lt_trichotomy choice front.length with hlt | rfl | hgt
        · -- Nothing in front of the way taken leads to acceptance.
          have hmem : v ∈ front := by
            rw [hsame, List.getElem?_append_left hlt] at hstep
            exact List.mem_of_getElem? hstep
          exact absurd hw (not_counts_of_first_eq_none h hlimits (hfront v hmem) hrest)
        · rw [hget] at hstep
          obtain rfl := Option.some.inj hstep
          exact (hleast rest w hrest hw).imp (congrArg _) .cons
        · exact .inr (.rel hgt)

end

theorem exists_prefers_iff (h : nfa.Grounded) {x z : Configuration} :
    (∃ choices, nfa.Prefers text x choices z) ↔ nfa.first h text text.size x = some z := by
  have hprefers : ∀ y, nfa.first h text text.size x = some y →
      ∃ choices, nfa.Prefers text x choices y := by
    intro y hy
    obtain ⟨choices, hpath, hleast⟩ := exists_least_of_first h (limits_size nfa text) hy
    exact ⟨choices, hpath, fun others w hw => hleast others w hw trivial⟩
  refine ⟨fun ⟨choices, hpath⟩ => ?_, hprefers z⟩
  cases hfirst : nfa.first h text text.size x with
  | none =>
    exact absurd trivial (not_counts_of_first_eq_none h (limits_size nfa text) hfirst hpath.accepts)
  | some y =>
    obtain ⟨others, hpath'⟩ := hprefers y hfirst
    rw [hpath'.unique hpath]

end Nfa

/-- A parsed pattern has a well-formed numbering, so its automaton is that of the pattern. -/
theorem Source.compiled_of_build {s : Source} {p : Pattern} {q : NumberedPattern} {config : Config}
    {nfa : Nfa} (hparse : s.parse = .ok p) (hnumber : NumberedPattern.number { p with } = .ok q)
    (hbuild : Nfa.build q config .forward = .ok nfa) : p.Compiled nfa := by
  have hq : q.toPattern = p := by
    cases hnumber
    rfl
  have hwf : q.toPattern.WellFormed := hq ▸ (Source.wellFormed_of_parse hparse).1
  exact hq ▸ Nfa.compiled_of_build hwf hbuild

/-- From the start of the automaton of a pattern the preferred accepting path exists exactly where
trying the pattern succeeds, and it ends at the same position and with the same captures. -/
theorem Nfa.exists_prefers_iff_attempt {s : Source} {p : Pattern} {q : NumberedPattern}
    {config : Config} {nfa : Nfa} (hparse : s.parse = .ok p)
    (hnumber : NumberedPattern.number { p with } = .ok q)
    (hbuild : Nfa.build q config .forward = .ok nfa) (text : Text) (start : Nat)
    (hstart : start ≤ text.size) (y : MatchState) :
    (∃ choices z, nfa.Prefers text ⟨start, Thread.initial nfa⟩ choices z ∧ z.matchState = y) ↔
      p.root.attempt p.flags text .forward ⟨start, Slots.unset p.groupCount⟩ some = some y := by
  have hcompiled := Source.compiled_of_build hparse hnumber hbuild
  have hgrounded := hcompiled.realizes.grounded
  have hfirst := hcompiled.realizes.first_eq (x := ⟨start, Thread.initial nfa⟩) hstart
    (by simp [Thread.initial])
  have hview : (Configuration.mk start (Thread.initial nfa)).matchState =
      ⟨start, Slots.unset p.groupCount⟩ := by
    simp only [Configuration.matchState, Thread.initial, hcompiled.groupCount]
  rw [hview] at hfirst
  rw [(p.root.attempt_follows p.flags text .forward).some_eq_head?]
  show _ ↔ (p.outcomes text _).head? = some y
  rw [← hfirst, Option.map_eq_some_iff]
  constructor
  · rintro ⟨choices, z, hpath, hz⟩
    exact ⟨z, (exists_prefers_iff hgrounded).mp ⟨choices, hpath⟩, hz⟩
  · rintro ⟨z, hz, hview⟩
    obtain ⟨choices, hpath⟩ := (exists_prefers_iff hgrounded).mpr hz
    exact ⟨choices, z, hpath, hview⟩

/-- The preferred path through `(a|)*` on `a` goes once around the loop. -/
theorem Nfa.exists_prefers_iff_attempt_loop :
    ∃ p q nfa, Source.parse ⟨"(a|)*", {}, {}⟩ = .ok p ∧
      NumberedPattern.number { p with } = .ok q ∧ Nfa.build q {} .forward = .ok nfa ∧
      ∃ choices z, nfa.Prefers #[97] ⟨0, Thread.initial nfa⟩ choices z ∧
        z.matchState = ⟨1, #[0, 1, 0, 1]⟩ := by
  let p : Pattern :=
    ⟨.one (.cons (.group (some 1) (some ⟨0, none, true⟩)
      (.more (.cons (.unit (.single 97)) .nil) (.one .nil))) .nil), {}, 2, [], 0⟩
  have hparse : Source.parse ⟨"(a|)*", {}, {}⟩ = .ok p := by cbv
  have hok : (Nfa.build ⟨p, true⟩ {} .forward).isOk = true := by cbv
  have hattempt : p.root.attempt p.flags #[97] .forward ⟨0, Slots.unset p.groupCount⟩ some =
      some ⟨1, #[0, 1, 0, 1]⟩ := by cbv
  cases hbuild : Nfa.build ⟨p, true⟩ {} .forward with
  | error e =>
    rw [hbuild] at hok
    cases hok
  | ok nfa =>
    refine ⟨p, ⟨p, true⟩, nfa, hparse, rfl, hbuild, ?_⟩
    exact (exists_prefers_iff_attempt hparse rfl hbuild #[97] 0 (by decide) _).mpr hattempt

end UnitRegex
