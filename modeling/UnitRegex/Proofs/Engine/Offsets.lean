import UnitRegex.Proofs.Automaton.Constructions
import UnitRegex.Proofs.Engine.Agreement
import UnitRegex.Proofs.Engine.Compilations
import UnitRegex.Proofs.Matching.Inside
import UnitRegex.Proofs.Pattern.Sticky

/-!
Searches from different positions. A search from further on finds the same match as long as it does
not begin behind it, and a sticky search finds the match that begins at its very start. All of this
holds of the leftmost match of a pattern, and therefore of every regex, whichever tables it has, as
long as its look-around bodies can be told apart. The limit on the states of an automaton is one on
its bodies too, and a pattern with few bodies has no more of them in its automaton.
-/

namespace UnitRegex

/-- The look-around bodies of the automaton, if there is one, can all be told apart. -/
def Strategy.BodiesFit : Strategy → Prop
  | .tables m => m.nfa.lookBehinds.length ≤ 65536 ∧ m.nfa.lookAheads.length ≤ 65536
  | .fallback _ => True

instance : (s : Strategy) → Decidable s.BodiesFit
  | .tables _ => inferInstanceAs (Decidable (_ ∧ _))
  | .fallback _ => inferInstanceAs (Decidable True)

section

open Draft.Invariant

variable {r : Regex} {config : Config} {p : Pattern}

/-- Tables come of an automaton of the pattern. -/
theorem Regex.MadeFrom.build_of_tables (h : r.MadeFrom config p) {m : TableMatcher}
    (hstrategy : r.strategy = .tables m) : Nfa.build ⟨p, true⟩ config .forward = .ok m.nfa := by
  rcases h.strategy with hfallback | ⟨m', htables, hbuild⟩
  · cases hstrategy.symm.trans hfallback
  · obtain rfl := Strategy.tables.inj (hstrategy.symm.trans htables)
    obtain ⟨q, hbuilt⟩ := TableMatcher.built_of_build hbuild
    have hq : q = ⟨p, true⟩ := by
      cases hbuilt.number
      rfl
    exact hq ▸ hbuilt.nfa

theorem Regex.MadeFrom.bodiesFit_of_limit (h : r.MadeFrom config p)
    (hlimit : config.maxAutomatonStates ≤ 65536) : r.strategy.BodiesFit := by
  cases hstrategy : r.strategy with
  | fallback search => trivial
  | tables m =>
    have hfew := Nfa.length_bodies_le (h.build_of_tables hstrategy)
    constructor <;> omega

theorem Regex.MadeFrom.bodiesFit_of_among (h : r.MadeFrom config p) {behinds : List (List CharSet)}
    {aheads : List (List (List CharSet))}
    (hp : ∀ x ∈ p.body.parts, (among config.maxAutomatonStates behinds aheads).Admits x)
    (hbehinds : behinds.length ≤ 65536) (haheads : aheads.length ≤ 65536) :
    r.strategy.BodiesFit := by
  cases hstrategy : r.strategy with
  | fallback search => trivial
  | tables m =>
    obtain ⟨hbehind, hahead⟩ := Nfa.length_bodies_le_of_among hp (h.build_of_tables hstrategy)
    exact ⟨Nat.le_trans hbehind hbehinds, Nat.le_trans hahead haheads⟩

end

/-- A regex finds the leftmost match of the pattern that it was made from. -/
theorem Regex.MadeFrom.find_eq_leftmost? {r : Regex} {config : Config} {p : Pattern}
    (h : r.MadeFrom config p) (hfit : r.strategy.BodiesFit) {text : Text} {start : Nat}
    (hstart : start ≤ text.size) :
    r.find text start =
      match p.leftmost? text start with
      | some y => ⟨y.slots⟩
      | none => .noMatch := by
  rw [find, if_neg (by omega)]
  rcases h.strategy with hstrategy | ⟨m, hstrategy, hbuild⟩
  · simp only [hstrategy]
    exact p.find_eq_leftmost? text hstart
  · obtain ⟨q, hbuilt⟩ := TableMatcher.built_of_build hbuild
    rw [hstrategy] at hfit
    simp only [hstrategy]
    exact hbuilt.find_eq_leftmost? h.parse hfit.1 hfit.2 hstart

namespace Pattern

variable {p : Pattern} {text : Text} {start i : Nat} {y : MatchState}

/-- Group 0 begins where the pattern matches. -/
theorem start_of_matchAt? (hgroups : 1 ≤ p.groupCount) (hi : i ≤ text.size)
    (hy : p.matchAt? text i = some y) : y.slots.start 0 = i := by
  have hmem := List.mem_of_head? hy
  have hsize := (inText_of_mem_outcomes hi hmem).2.slots.size_eq
  exact (bounds_of_mem_outcomes hmem (by omega)).1

/-- The leftmost match is also the leftmost one from any position up to it. -/
theorem FirstMatch.leftmost?_eq (h : p.FirstMatch text start i y) (hsticky : p.flags.sticky = false)
    {j : Nat} (hstart : start ≤ j) (hj : j ≤ i) : p.leftmost? text j = some y := by
  rw [leftmost?, hsticky, Nfa.findSome?_attempts_eq_some_iff (Nat.le_trans hj h.le_size)]
  have hearlier : ∀ k, j ≤ k → k < i → p.matchAt? text k = none := fun k hk =>
    h.earlier k (Nat.le_trans hstart hk)
  exact ⟨i, hj, h.le_size, fun hfalse => absurd hfalse Bool.false_ne_true, h.isMatch, hearlier⟩

theorem leftmost?_eq_none_iff (hsticky : p.flags.sticky = false) (hstart : start ≤ text.size) :
    p.leftmost? text start = none ↔
      ∀ i, start ≤ i → i ≤ text.size → p.matchAt? text i = none := by
  rw [leftmost?, List.findSome?_eq_none_iff]
  simp only [Nfa.mem_attempts hstart, hsticky, Bool.false_eq_true, false_implies, and_true, and_imp]

/-- The match at a position is the leftmost one from there on that begins there. -/
theorem matchAt?_eq_some_iff (hgroups : 1 ≤ p.groupCount) (hsticky : p.flags.sticky = false)
    (hstart : start ≤ text.size) :
    p.matchAt? text start = some y ↔
      p.leftmost? text start = some y ∧ y.slots.start 0 = start := by
  constructor
  · intro hy
    have hfirst : p.FirstMatch text start start y :=
      ⟨Nat.le_refl _, hstart, hy, fun j hj hlt => by omega⟩
    exact ⟨hfirst.leftmost?_eq hsticky (Nat.le_refl _) (Nat.le_refl _),
      start_of_matchAt? hgroups hstart hy⟩
  · rintro ⟨hy, hfirst⟩
    obtain ⟨i, hmatch, -⟩ := exists_of_leftmost? hstart hy
    have hi : y.slots.start 0 = i := start_of_matchAt? hgroups hmatch.le_size hmatch.isMatch
    obtain rfl : i = start := by omega
    exact hmatch.isMatch

end Pattern

/-- A search may begin anywhere up to its match and finds the same, and where a search finds nothing
there is nothing to be found from further on. -/
theorem Engine.find_eq_of_le_first {config : Config} {e : Engine} (he : e.Reachable config)
    {s : Source} (hsticky : s.flags.sticky = false) {r : Regex} (hr : (e.compile s).1 = .ok r)
    (hfit : r.strategy.BodiesFit) {text : Text} {start : Nat} (hstart : start ≤ text.size) :
    (∀ first : Nat, (r.find text start).start 0 = first →
      ∀ i, start ≤ i → i ≤ first → r.find text i = r.find text start) ∧
    (r.find text start = .noMatch →
      ∀ i, start ≤ i → i ≤ text.size → r.find text i = .noMatch) := by
  obtain ⟨p, rfl, hmade⟩ := he.exists_madeFrom hr
  obtain ⟨-, hgroups⟩ := Source.wellFormed_of_parse hmade.parse
  rw [← Source.flags_of_parse hmade.parse] at hsticky
  have hfind := hmade.find_eq_leftmost? hfit hstart
  cases hy : p.leftmost? text start with
  | none =>
    simp only [hy] at hfind
    constructor
    · intro first hfirst
      rw [hfind] at hfirst
      cases hfirst
    · intro _ i hle hi
      have hnone := (Pattern.leftmost?_eq_none_iff hsticky hstart).mp hy
      have hlater : p.leftmost? text i = none :=
        (Pattern.leftmost?_eq_none_iff hsticky hi).mpr fun j hj =>
          hnone j (Nat.le_trans hle hj)
      rw [hmade.find_eq_leftmost? hfit hi, hlater]
  | some y =>
    obtain ⟨k, hmatch, -⟩ := Pattern.exists_of_leftmost? hstart hy
    have hk := Pattern.start_of_matchAt? hgroups hmatch.le_size hmatch.isMatch
    simp only [hy] at hfind
    constructor
    · intro first hfirst i hle hi
      rw [hfind] at hfirst
      obtain rfl : k = first := Int.ofNat.inj (hk.symm.trans hfirst)
      have hend := Nat.le_trans hi hmatch.le_size
      rw [hmade.find_eq_leftmost? hfit hend, hmatch.leftmost?_eq hsticky hle hi, hfind]
    · intro hno
      rw [hfind] at hno
      have hnil : y.slots = #[] := congrArg SearchResult.slots hno
      rw [hnil] at hk
      cases hk

/-- A regex that looks at the unit in front of a match, and its matches in `xxab`. -/
theorem Engine.compile_behind :
    ∃ r, ((Engine.ofConfig {}).compile ⟨"(?<=x)a(b|c)", {}, {}⟩).1 = .ok r ∧
      r.strategy.BodiesFit ∧ r.find #[120, 120, 97, 98] 0 = ⟨#[2, 4, 3, 4]⟩ ∧
      r.find #[120, 120, 97, 98] 2 = ⟨#[2, 4, 3, 4]⟩ ∧ r.find #[120, 120, 97, 98] 3 = .noMatch := by
  have hok : (((Engine.ofConfig {}).compile ⟨"(?<=x)a(b|c)", {}, {}⟩).1.toOption.any fun r =>
      decide (r.strategy.BodiesFit ∧ r.find #[120, 120, 97, 98] 0 = ⟨#[2, 4, 3, 4]⟩ ∧
        r.find #[120, 120, 97, 98] 2 = ⟨#[2, 4, 3, 4]⟩ ∧
        r.find #[120, 120, 97, 98] 3 = .noMatch)) = true := by cbv
  obtain ⟨r, hr, hok⟩ := exists_eq_ok_of_any hok
  exact ⟨r, hr, of_decide_eq_true hok⟩

/-- In `xxab` the match of `(?<=x)a(b|c)` is found from its own start as well as from the start of the
text, and none is found behind it. -/
theorem Engine.find_eq_of_le_first_behind :
    ∃ r, ((Engine.ofConfig {}).compile ⟨"(?<=x)a(b|c)", {}, {}⟩).1 = .ok r ∧
      r.strategy.BodiesFit ∧ r.find #[120, 120, 97, 98] 2 = ⟨#[2, 4, 3, 4]⟩ ∧
      r.find #[120, 120, 97, 98] 4 = .noMatch := by
  obtain ⟨r, hr, hfit, hfind, -, hnone⟩ := Engine.compile_behind
  have hsame := (Engine.find_eq_of_le_first .new rfl hr hfit (Nat.zero_le _)).1 2
    (by rw [hfind]; rfl) 2 (by decide) (by decide)
  have hlater := (Engine.find_eq_of_le_first .new rfl hr hfit (by decide)).2 hnone 4 (by decide)
    (by decide)
  exact ⟨r, hr, hfit, hsame.trans hfind, hlater⟩

/-- A sticky search finds what the other search finds if that begins at its start, and nothing else.
The two regexes may come from engines with different configurations. -/
theorem Engine.find_withSticky {config config' : Config} {e e' : Engine} (he : e.Reachable config)
    (he' : e'.Reachable config') {s : Source} (hsticky : s.flags.sticky = false) {r : Regex}
    (hr : (e.compile s).1 = .ok r) :
    ∃ r', (e'.compile (s.withSticky true)).1 = .ok r' ∧
      (r.strategy.BodiesFit → r'.strategy.BodiesFit → ∀ (text : Text) (start : Nat), start ≤ text.size →
        r'.find text start =
          if (r.find text start).start 0 = start then r.find text start else .noMatch) := by
  obtain ⟨p, rfl, hmade⟩ := he.exists_madeFrom hr
  obtain ⟨-, hgroups⟩ := Source.wellFormed_of_parse hmade.parse
  rw [← Source.flags_of_parse hmade.parse] at hsticky
  have hparse : (r.source.withSticky true).parse = .ok (p.withSticky true) := by
    rw [Source.parse_withSticky, hmade.parse]
    rfl
  obtain ⟨r', hr', -, hmade'⟩ := he'.compile_of_parse hparse
  use r', hr'
  intro hfit hfit' text start hstart
  have hiff (y : MatchState) :=
    Pattern.matchAt?_eq_some_iff (y := y) hgroups hsticky hstart
  rw [hmade'.find_eq_leftmost? hfit' hstart, Pattern.leftmost?_withSticky,
    hmade.find_eq_leftmost? hfit hstart]
  cases hat : p.matchAt? text start with
  | some y =>
    obtain ⟨hy, hfirst⟩ := (hiff y).mp hat
    simp only [hy]
    exact (if_pos hfirst).symm
  | none =>
    cases hy : p.leftmost? text start with
    | none => simp
    | some y =>
      have hne : y.slots.start 0 ≠ start := fun hfirst => by
        simp [(hiff y).mpr ⟨hy, hfirst⟩] at hat
      exact (if_neg hne).symm

/-- The match that `(?<=x)a(b|c)` has at position 2 of `xxab` is found from there by a sticky search,
also without tables, and not from the start of the text. -/
theorem Engine.find_withSticky_behind :
    ∃ r, ((Engine.ofConfig { maxTableStates := 1 }).compile
        (Source.withSticky ⟨"(?<=x)a(b|c)", {}, {}⟩ true)).1 = .ok r ∧
      r.isFallback = true ∧ r.find #[120, 120, 97, 98] 2 = ⟨#[2, 4, 3, 4]⟩ ∧
      r.find #[120, 120, 97, 98] 0 = .noMatch := by
  obtain ⟨r, hr, hfit, hfind, hagain, -⟩ := Engine.compile_behind
  have hok' : (((Engine.ofConfig { maxTableStates := 1 }).compile
      (Source.withSticky ⟨"(?<=x)a(b|c)", {}, {}⟩ true)).1.toOption.any fun r =>
      decide (r.strategy.BodiesFit ∧ r.isFallback = true)) = true := by cbv
  obtain ⟨other, hother, hok'⟩ := exists_eq_ok_of_any hok'
  obtain ⟨hfit', hfallback⟩ := of_decide_eq_true hok'
  obtain ⟨r', hr', hsticky⟩ := Engine.find_withSticky .new
    (.new : Engine.Reachable { maxTableStates := 1 } _) rfl hr
  obtain rfl := Except.ok.inj (hother.symm.trans hr')
  have hat := hsticky hfit hfit' #[120, 120, 97, 98] 2 (by decide)
  have hfront := hsticky hfit hfit' #[120, 120, 97, 98] 0 (by decide)
  rw [hagain] at hat
  rw [hfind] at hfront
  exact ⟨other, hr', hfallback, hat, hfront⟩

end UnitRegex
