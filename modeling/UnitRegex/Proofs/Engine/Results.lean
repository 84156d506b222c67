import UnitRegex.Proofs.Backtrack.Visits
import UnitRegex.Proofs.Engine.Agreement
import UnitRegex.Proofs.Engine.Compilations
import UnitRegex.Proofs.Pattern.Sticky
import UnitRegex.Proofs.Search.LeftmostPath
import UnitRegex.Proofs.Table.ForwardDelays

/-!
What results look like. Whichever way a match was found, its bounds and those of its groups lie in
the text, in order, and from the start of the search on. Nothing is assumed of the number of
look-arounds: where the tables do not tell them apart, a match may be another one, but its captures
still come of some outcome of the pattern.
-/

namespace UnitRegex

/-- The path of an accepting configuration goes on from one of those that others lead to. -/
theorem Nfa.Unfolds.exists_accepts {nfa : Nfa} {text : Text} {lo hi : Nat}
    {a b : List Configuration} (h : nfa.Unfolds text lo hi a b) {x z : Configuration}
    {choices : List Nat} (hx : x ∈ a) (hz : nfa.Accepts text x choices z) :
    ∃ y ∈ b, ∃ others, nfa.Accepts text y others z := by
  induction h generalizing x choices with
  | nil => cases hx
  | leave w _ ih =>
    rcases List.mem_cons.mp hx with rfl | hx
    · exact ⟨x, List.mem_cons_self, choices, hz⟩
    · obtain ⟨y, hy, hpath⟩ := ih hx hz
      exact ⟨y, List.mem_cons_of_mem _ hy, hpath⟩
  | step _ _ haccept _ _ ihways ih =>
    rcases List.mem_cons.mp hx with rfl | hx
    · cases hz with
      | stop hstop => exact absurd hstop haccept
      | step _ hstep hrest =>
        obtain ⟨y, hy, hpath⟩ := ihways (List.mem_of_getElem? hstep) hrest
        exact ⟨y, List.mem_append_left _ hy, hpath⟩
    · obtain ⟨y, hy, hpath⟩ := ih hx hz
      exact ⟨y, List.mem_append_right _ hy, hpath⟩

namespace Pattern.Compiled

variable {p : Pattern} {nfa : Nfa} {text : Text}

/-- Every accepting path of the automaton ends at an outcome of the pattern. -/
theorem mem_outcomes_of_accepts (h : p.Compiled nfa) {i : Nat} (hi : i ≤ text.size)
    {z : Configuration} {choices : List Nat}
    (hz : nfa.Accepts text ⟨i, Thread.initial nfa⟩ choices z) :
    z.matchState ∈ p.outcomes text ⟨i, Slots.unset p.groupCount⟩ := by
  obtain ⟨after, hmap, haccept, hunfolds⟩ := h.realizes.yields text ⟨i, Thread.initial nfa⟩ hi
    (by simp [Thread.initial])
  have hview : (Configuration.mk i (Thread.initial nfa)).matchState =
      ⟨i, Slots.unset p.groupCount⟩ := by
    simp only [Configuration.matchState, Thread.initial, h.groupCount]
  rw [hview] at hmap
  obtain ⟨y, hy, others, hpath⟩ := hunfolds.exists_accepts (List.mem_singleton_self _) hz
  cases hpath with
  | stop _ =>
    rw [← hmap]
    exact List.mem_map_of_mem hy
  | step hother _ _ => exact absurd (haccept y hy) hother

/-- What a simulation up to any limit finds are the captures of an outcome that ends there at the
latest. -/
theorem exists_outcome_of_findSlots (h : p.Compiled nfa) {start stop : Nat} (hle : start ≤ stop)
    (hstop : stop ≤ text.size) {anchored : Bool} {slots : Slots}
    (hslots : nfa.findSlots text start stop anchored = some slots) :
    ∃ i y, start ≤ i ∧ (anchored = true → i = start) ∧ i ≤ text.size ∧
      y ∈ p.outcomes text ⟨i, Slots.unset p.groupCount⟩ ∧ y.slots = slots := by
  have hgrounded := h.realizes.grounded
  rw [Nfa.findSlots_eq hgrounded h.direction (by omega), Nat.min_eq_left hstop,
    Nfa.findSome?_attempts_eq_some_iff hle] at hslots
  obtain ⟨i, hstart, hi, hanchored, hfound, -⟩ := hslots
  obtain ⟨z, hz, rfl⟩ := Option.map_eq_some_iff.mp hfound
  obtain ⟨choices, hpath⟩ :=
    (Nfa.exists_prefersWithin_iff hgrounded h.direction hstop hi).mpr hz
  have hmem := h.mem_outcomes_of_accepts (Nat.le_trans hi hstop) hpath.accepts
  exact ⟨i, _, hstart, hanchored, Nat.le_trans hi hstop, hmem, rfl⟩

end Pattern.Compiled

/-- A match in a text of a size: its groups are unset or have their bounds in order and in the text,
and the first one is set, from the start of the search on or, for a sticky pattern, at it. -/
structure SearchResult.WellPlaced (size groupCount start : Nat) (sticky : Bool) (r : SearchResult) :
    Prop where
  slots : r.slots.Within size groupCount
  whole : ∃ lo hi : Nat, r.start 0 = lo ∧ r.stop 0 = hi ∧ start ≤ lo ∧ lo ≤ hi ∧ hi ≤ size ∧
    (sticky = true → lo = start)

namespace SearchResult

/-- There is no match, or one that is well placed. -/
def Sound (size groupCount start : Nat) (sticky : Bool) (r : SearchResult) : Prop :=
  r = .noMatch ∨ r.WellPlaced size groupCount start sticky

/-- A match has every group, whether it took part or not. -/
theorem WellPlaced.groupCount_eq {size groupCount start : Nat} {sticky : Bool} {r : SearchResult}
    (h : r.WellPlaced size groupCount start sticky) : r.groupCount = groupCount := by
  rw [SearchResult.groupCount, h.slots.size_eq]
  omega

theorem wellPlaced_of_mem_outcomes {p : Pattern} (hgroups : 1 ≤ p.groupCount) {text : Text}
    {start i : Nat} (hstart : start ≤ i) (hi : i ≤ text.size)
    (hsticky : p.flags.sticky = true → i = start) {y : MatchState}
    (hy : y ∈ p.outcomes text ⟨i, Slots.unset p.groupCount⟩) :
    (⟨y.slots⟩ : SearchResult).WellPlaced text.size p.groupCount start p.flags.sticky := by
  obtain ⟨hle, hin⟩ := Pattern.inText_of_mem_outcomes hi hy
  have hsize := hin.slots.size_eq
  obtain ⟨hlo, hhi⟩ := Pattern.bounds_of_mem_outcomes hy (by omega)
  exact ⟨hin.slots, i, y.cursor, hlo, hhi, hstart, hle, hin.cursor_le, hsticky⟩

theorem wellPlaced_ofBounds {size start stop : Nat} (hle : start ≤ stop) (hstop : stop ≤ size)
    (sticky : Bool) : (ofBounds start stop 1).WellPlaced size 1 start sticky := by
  constructor
  · exact (Slots.within_unset size 1).record hle hstop 0
  · exact ⟨start, stop, rfl, rfl, Nat.le_refl _, hle, hstop, fun _ => rfl⟩

end SearchResult

/-- The leftmost match is well placed. -/
theorem Pattern.sound_leftmost? {p : Pattern} (hgroups : 1 ≤ p.groupCount) {text : Text}
    {start : Nat} (hstart : start ≤ text.size) :
    SearchResult.Sound text.size p.groupCount start p.flags.sticky
      (match p.leftmost? text start with
      | some y => ⟨y.slots⟩
      | none => .noMatch) := by
  cases hy : p.leftmost? text start with
  | none => exact .inl rfl
  | some y =>
    obtain ⟨i, hmatch, hsticky⟩ := exists_of_leftmost? hstart hy
    exact .inr (SearchResult.wellPlaced_of_mem_outcomes hgroups hmatch.start_le hmatch.le_size
      hsticky (List.mem_of_head? hmatch.isMatch))

namespace TableMatcher

variable {s : Source} {p : Pattern} {config : Config} {m : TableMatcher} {q : NumberedPattern}
  {text : Text} {start : Nat}

/-- A simulation from the start of the search on finds a match that is well placed. -/
theorem Built.sound_simulate (h : Built p config m q) (hparse : s.parse = .ok p) {stop : Nat}
    (hle : start ≤ stop) (hstop : stop ≤ text.size) {anchored : Bool}
    (hanchored : p.flags.sticky = true → anchored = true) :
    (m.simulate text start stop anchored).Sound text.size p.groupCount start p.flags.sticky := by
  have hgroups := (Source.wellFormed_of_parse hparse).2
  unfold simulate
  cases hslots : m.nfa.findSlots text start stop anchored with
  | none => exact .inl rfl
  | some slots =>
    obtain ⟨i, y, hstart, hat, hi, hy, rfl⟩ :=
      (h.compiled hparse).exists_outcome_of_findSlots hle hstop hslots
    exact .inr (SearchResult.wellPlaced_of_mem_outcomes hgroups hstart hi
      (fun hsticky => hat (hanchored hsticky)) hy)

/-- Everything that a matcher by tables finds is well placed. -/
theorem Built.sound_find (h : Built p config m q) (hparse : s.parse = .ok p)
    (hstart : start ≤ text.size) :
    (m.find text start).Sound text.size p.groupCount start p.flags.sticky := by
  have hgroups := (Source.wellFormed_of_parse hparse).2
  have hcompiled := h.compiled hparse
  rcases h.looksFit_or hparse with ⟨hbehind, hlooks⟩ | ⟨hpaths, hbackward⟩
  · rw [h.find_eq_leftmost?_of_looksFit hparse hbehind hlooks hstart]
    exact Pattern.sound_leftmost? hgroups hstart
  · rw [h.find_eq_of_none hpaths hbackward]
    split
    · exact .inl rfl
    · rename_i stop hend
      obtain ⟨hle, hstop⟩ := hcompiled.lastEnd?_bounds h.forward hstart hend
      split
      · rename_i hone
        have hcount : p.groupCount = 1 := by
          rw [hcompiled.groupCount] at hone
          omega
        rw [hcompiled.groupCount, hcount]
        exact .inr (SearchResult.wellPlaced_ofBounds hle hstop p.flags.sticky)
      · exact h.sound_simulate hparse hle hstop id

/-- Wherever the walk of a search comes by, its delays stay behind the start of the search, so the
ends that it reports are positions from there on. -/
def DelaysFit (m : TableMatcher) (text : Text) (start : Nat) : Prop :=
  ∀ s cursor, m.forward.Walks text
      (m.forward.state (m.forward.entry (ForwardSubset.entryFor m.nfa.context m.sticky start)))
      (start - min start m.nfa.context) s cursor →
    cursor ≤ text.size ∧ s.acceptance.Fits text.size start cursor

end TableMatcher

/-- Wherever a run of the program of a pattern comes by, the position and the stretches that
back-references compare with lie in the text. -/
def Pattern.CapturesFit (p : Pattern) (text : Text) : Prop :=
  ∀ i t, i ≤ text.size → p.program.Visits text (p.program.start i) t →
    t.cursor ≤ text.size ∧ t.slots.Within text.size p.groupCount

/-- A regex made from a pattern finds nothing or a match that is well placed. -/
theorem Regex.MadeFrom.sound_find {r : Regex} {config : Config} {p : Pattern}
    (h : r.MadeFrom config p) {text : Text} {start : Nat} (hstart : start ≤ text.size) :
    (r.find text start).Sound text.size p.groupCount start p.flags.sticky := by
  have hgroups := (Source.wellFormed_of_parse h.parse).2
  rw [find, if_neg (by omega)]
  rcases h.strategy with hstrategy | ⟨m, hstrategy, hbuild⟩
  · simp only [hstrategy, p.find_eq_leftmost? text hstart]
    exact Pattern.sound_leftmost? hgroups hstart
  · obtain ⟨q, hbuilt⟩ := TableMatcher.built_of_build hbuild
    simp only [hstrategy]
    exact hbuilt.sound_find h.parse hstart

/-- Every result of a regex that an engine compiled is well placed: there is no match behind the end
of the text, and elsewhere none or one whose groups lie in the text, in order, from the start of the
search on. Neither the stretches that a back-reference compares nor the ends that the forward table
reports leave the text on the way. -/
theorem Engine.results_wellPlaced {config : Config} {e : Engine} (he : e.Reachable config)
    {s : Source} {r : Regex} (hr : (e.compile s).1 = .ok r) (text : Text) (start : Nat) :
    (text.size < start → r.find text start = .noMatch) ∧
      (start ≤ text.size →
        (r.find text start).Sound text.size r.groupCount start s.flags.sticky) ∧
      (∀ p, s.parse = .ok p → p.groupCount = r.groupCount ∧ p.CapturesFit text) ∧
      ∀ m, r.strategy = .tables m → start ≤ text.size → m.DelaysFit text start := by
  obtain ⟨p, rfl, hmade⟩ := he.exists_madeFrom hr
  have hflags := Source.flags_of_parse hmade.parse
  and_intros
  · intro hlt
    rw [Regex.find, if_pos hlt]
  · intro hstart
    rw [hmade.groupCount, ← hflags]
    exact hmade.sound_find hstart
  · intro p' hparse
    obtain rfl := Except.ok.inj (hmade.parse.symm.trans hparse)
    constructor
    · exact hmade.groupCount.symm
    · intro i t hi ht
      have hin := Pattern.inText_of_visits hi ht
      exact ⟨hin.cursor_le, hin.slots⟩
  · intro m hstrategy hstart
    rcases hmade.strategy with hfallback | ⟨m', hstrategy', hbuild⟩
    · cases hstrategy.symm.trans hfallback
    · obtain rfl := Strategy.tables.inj (hstrategy.symm.trans hstrategy')
      obtain ⟨q, hbuilt⟩ := TableMatcher.built_of_build hbuild
      intro state cursor hwalks
      rw [hbuilt.sticky] at hwalks
      exact (hbuilt.compiled hmade.parse).delays_le hbuilt.forward hstart hwalks

/-- In `xab` the look-behind of `(?<=(a))b(c)?` captures the `a`, and its other group stays unset. -/
theorem Engine.results_wellPlaced_behind :
    ∃ r, ((Engine.ofConfig {}).compile ⟨"(?<=(a))b(c)?", {}, {}⟩).1 = .ok r ∧
      r.find #[120, 97, 98] 0 = ⟨#[2, 3, 1, 2, -1, -1]⟩ ∧
      (r.find #[120, 97, 98] 0).Sound 3 r.groupCount 0 false := by
  have hok : (((Engine.ofConfig {}).compile ⟨"(?<=(a))b(c)?", {}, {}⟩).1.toOption.any fun r =>
      decide (r.find #[120, 97, 98] 0 = ⟨#[2, 3, 1, 2, -1, -1]⟩)) = true := by cbv
  obtain ⟨r, hr, hfind⟩ := exists_eq_ok_of_any hok
  obtain ⟨-, hsound, -, -⟩ := Engine.results_wellPlaced .new hr #[120, 97, 98] 0
  exact ⟨r, hr, of_decide_eq_true hfind, hsound (Nat.zero_le _)⟩

end UnitRegex
