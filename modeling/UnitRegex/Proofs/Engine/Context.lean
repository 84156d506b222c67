import UnitRegex.Proofs.Engine.Agreement
import UnitRegex.Proofs.Engine.Compilations
import UnitRegex.Proofs.Table.MovedWalks

/-!
How far back a search by tables looks. What it finds depends only on the text from a bounded number
of units in front of its start on, and on whether the start is that of the text: around another
position of another text that looks the same it finds the same, moved by the distance.
-/

namespace UnitRegex

namespace SearchResult

/-- The bounds that are set, moved by a distance. -/
def movedBy (r : SearchResult) (distance : Int) : SearchResult := ⟨r.slots.movedBy distance⟩

theorem movedBy_noMatch (distance : Int) : noMatch.movedBy distance = noMatch := by
  simp [movedBy, noMatch, Slots.movedBy]

theorem ofBounds_moved {i j start stop : Nat} (hi : i ≤ start) (hle : start ≤ stop)
    (groupCount : Nat) :
    ofBounds (Text.moved i j start) (Text.moved i j stop) groupCount =
      (ofBounds start stop groupCount).movedBy (j - i) := by
  simp only [ofBounds, movedBy, Slots.setStart, Slots.setStop, Slots.movedBy_setIfInBounds,
    Slots.movedBy_unset, Text.cast_moved hi, Text.cast_moved (Nat.le_trans hi hle)]

end SearchResult

namespace TableMatcher

variable {s : Source} {p : Pattern} {config : Config} {m : TableMatcher} {q : NumberedPattern}
  {x y : Text} {i j : Nat}

theorem Built.simulate_moved (h : Built p config m q) (hparse : s.parse = .ok p)
    (halike : x.Alike m.nfa.context i y j) {stop : Nat} (hle : i ≤ stop) (hstop : stop ≤ x.size)
    (anchored : Bool) :
    m.simulate y j (Text.moved i j stop) anchored =
      (m.simulate x i stop anchored).movedBy (j - i) := by
  have hcompiled := h.compiled hparse
  have hbehind : ∀ body ∈ m.nfa.lookBehinds, body.length ≤ m.nfa.context :=
    hcompiled.context_eq ▸ hcompiled.lookBehinds
  have hslots := Nfa.findSlots_moved hcompiled.realizes.grounded hcompiled.direction hbehind halike
    (Nat.le_refl i) hle hstop anchored
  rw [Text.moved_self] at hslots
  rw [simulate, simulate, hslots]
  cases m.nfa.findSlots x i stop anchored with
  | none => exact (SearchResult.movedBy_noMatch _).symm
  | some slots => rfl

/-- If its bodies of look-arounds can be told apart, a matcher finds what a simulation of the whole
rest of the text finds. -/
theorem Built.find_eq_simulate (h : Built p config m q) (hparse : s.parse = .ok p)
    (hbehind : m.nfa.lookBehinds.length ≤ 65536)
    (hlooks : ∀ atStart, m.nfa.LooksFit atStart m.nfa.start) (hi : i ≤ x.size) :
    m.find x i = m.simulate x i x.size p.flags.sticky := by
  have hgroups := (Source.wellFormed_of_parse hparse).2
  rw [h.find_eq_leftmost?_of_looksFit hparse hbehind hlooks hi, simulate,
    (h.compiled hparse).findSlots_eq_leftmost? hgroups hi]
  cases p.leftmost? x i <;> rfl

/-- A search by tables finds the same at positions around which two texts are alike. -/
theorem Built.find_moved (h : Built p config m q) (hparse : s.parse = .ok p)
    (halike : x.Alike m.nfa.context i y j) : m.find y j = (m.find x i).movedBy (j - i) := by
  have hcompiled := h.compiled hparse
  rcases h.looksFit_or hparse with ⟨hbehind, hlooks⟩ | ⟨hpaths, hbackward⟩
  · rw [h.find_eq_simulate hparse hbehind hlooks halike.le_size,
      h.find_eq_simulate hparse hbehind hlooks halike.le_size', halike.size_eq]
    exact h.simulate_moved hparse halike halike.le_size (Nat.le_refl _) p.flags.sticky
  · -- The captures are found from the end that the forward table tells, right or not.
    rw [h.find_eq_of_none hpaths hbackward, h.find_eq_of_none hpaths hbackward,
      hcompiled.lastEnd?_moved h.forward halike]
    cases hend : m.forward.lastEnd? x
      (m.forward.entry (ForwardSubset.entryFor m.nfa.context p.flags.sticky i))
      (i - min i m.nfa.context) with
    | none => exact (SearchResult.movedBy_noMatch _).symm
    | some stop =>
      obtain ⟨hle, hstop⟩ := hcompiled.lastEnd?_bounds h.forward halike.le_size hend
      simp only [Option.map_some]
      split
      · have hbounds := SearchResult.ofBounds_moved (j := j) (Nat.le_refl i) hle m.nfa.groupCount
        rwa [Text.moved_self] at hbounds
      · exact h.simulate_moved hparse halike hle hstop p.flags.sticky

end TableMatcher

/-- The matcher by tables, where there is one. -/
def Strategy.matcher? : Strategy → Option TableMatcher
  | .tables m => some m
  | .fallback _ => none

/-- A regex with tables looks back at most as many units as its automaton has entries for. Where the
texts around two positions are alike so far, and neither position is at the start of its text, it
finds the same from both, moved by the distance. -/
theorem Engine.find_eq_movedBy {config : Config} {e : Engine} (he : e.Reachable config)
    {s : Source} {r : Regex} (hr : (e.compile s).1 = .ok r) {m : TableMatcher}
    (hm : r.strategy = .tables m) {x y : Text} {i j : Nat} (hi : max m.nfa.context 1 ≤ i)
    (hx : i ≤ x.size) (hj : max m.nfa.context 1 ≤ j) (hy : j ≤ y.size)
    (hsame : x.toList.drop (i - m.nfa.context) = y.toList.drop (j - m.nfa.context)) :
    r.find y j = (r.find x i).movedBy (j - i) := by
  obtain ⟨p, -, hmade⟩ := he.exists_madeFrom hr
  rcases hmade.strategy with hfallback | ⟨m', hm', hbuild⟩
  · cases hm.symm.trans hfallback
  · obtain rfl := Strategy.tables.inj (hm.symm.trans hm')
    obtain ⟨q, hbuilt⟩ := TableMatcher.built_of_build hbuild
    rw [Regex.find, Regex.find, if_neg (by omega), if_neg (by omega), hm]
    exact hbuilt.find_moved hmade.parse ⟨hi, hx, hj, hy, hsame⟩

/-- In `yyyxab` the regex `(?<=x)a(b|c)?` finds from position 4 on what it finds from position 2 of
`xxab` on. -/
theorem Engine.find_eq_movedBy_behind :
    ∃ r, ((Engine.ofConfig {}).compile ⟨"(?<=x)a(b|c)?", {}, {}⟩).1 = .ok r ∧
      r.find #[120, 120, 97, 98] 2 = ⟨#[2, 4, 3, 4]⟩ ∧
      r.find #[121, 121, 121, 120, 97, 98] 4 = ⟨#[4, 6, 5, 6]⟩ := by
  have hok : (((Engine.ofConfig {}).compile ⟨"(?<=x)a(b|c)?", {}, {}⟩).1.toOption.any fun r =>
      r.strategy.matcher?.any fun m =>
        decide (m.nfa.context = 1 ∧ r.find #[120, 120, 97, 98] 2 = ⟨#[2, 4, 3, 4]⟩)) = true := by
    cbv
  obtain ⟨r, hr, hok⟩ := exists_eq_ok_of_any hok
  cases hm : r.strategy with
  | fallback search =>
    rw [hm] at hok
    cases hok
  | tables m =>
    rw [hm] at hok
    obtain ⟨hcontext, hfind⟩ := of_decide_eq_true hok
    have hmoved := Engine.find_eq_movedBy .new hr hm (x := #[120, 120, 97, 98])
      (y := #[121, 121, 121, 120, 97, 98]) (i := 2) (j := 4) (by rw [hcontext]; decide) (by decide)
      (by rw [hcontext]; decide) (by decide) (by rw [hcontext]; decide)
    rw [hfind] at hmoved
    exact ⟨r, hr, hfind, hmoved.trans (by simp [SearchResult.movedBy, Slots.movedBy])⟩

end UnitRegex
