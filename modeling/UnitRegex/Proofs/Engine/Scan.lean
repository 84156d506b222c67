import UnitRegex.Proofs.Engine.Offsets
import UnitRegex.Proofs.Engine.Results

/-!
The scan of a text for all matches. It searches again from the end of each match, or one position
further on if the match was empty. The scan comes to an end whatever the regex is, its matches do not
overlap, and a regex that is not sticky misses no position at which its pattern matches.
-/

namespace UnitRegex

namespace Regex

/-- Where the scan goes on behind a match. -/
def resume (lo hi : Nat) : Nat := if lo < hi then hi else hi + 1

/-- A scan from a position on, as the row of its searches: from where each of them began, and what it
found. It stops at the first search that finds nothing, and behind the end of the text. -/
inductive Scans (r : Regex) (text : Text) : Nat → List (Nat × SearchResult) → Prop
  | behind {start : Nat} (h : text.size < start) : Scans r text start []
  | nothing {start : Nat} (h : start ≤ text.size) (hnone : (r.find text start).group? 0 = none) :
    Scans r text start [(start, r.find text start)]
  | found {start lo hi : Nat} {rest : List (Nat × SearchResult)} (h : start ≤ text.size)
    (hsome : (r.find text start).group? 0 = some (lo, hi)) (hrest : Scans r text (resume lo hi) rest) :
    Scans r text start ((start, r.find text start) :: rest)

/-- The bounds of the matches that some searches found. -/
def reported (calls : List (Nat × SearchResult)) : List (Nat × Nat) :=
  calls.filterMap (·.2.group? 0)

/-- What a match takes up, of which an empty one has the position where it stands. -/
def Covers (bounds : Nat × Nat) (i : Nat) : Prop :=
  bounds.1 ≤ i ∧ i < max bounds.2 (bounds.1 + 1)

/-- The second match begins behind the first one, and not before its end. -/
def Precedes (first second : Nat × Nat) : Prop :=
  first.1 < second.1 ∧ first.2 ≤ second.1

end Regex

open Regex

/-- The whole match has its bounds in group 0. -/
theorem SearchResult.WellPlaced.exists_bounds {size groupCount start : Nat} {sticky : Bool}
    {r : SearchResult} (h : r.WellPlaced size groupCount start sticky) :
    ∃ lo hi, r.group? 0 = some (lo, hi) ∧ start ≤ lo ∧ lo ≤ hi ∧ hi ≤ size := by
  obtain ⟨lo, hi, hlo, hhi, hstart, hle, hsize, -⟩ := h.whole
  refine ⟨lo, hi, ?_, hstart, hle, hsize⟩
  simp [SearchResult.group?, hlo, hhi]

section

variable {r : Regex} {config : Config} {p : Pattern} {text : Text} {start lo hi : Nat}
  {calls : List (Nat × SearchResult)}

theorem reported_cons {result : SearchResult} (h : result.group? 0 = some (lo, hi)) :
    reported ((start, result) :: calls) = (lo, hi) :: reported calls :=
  List.filterMap_cons_some h

theorem le_resume (hle : lo ≤ hi) : lo < resume lo hi ∧ hi ≤ resume lo hi := by
  unfold resume
  split <;> omega

/-- What a match covers ends where the scan goes on. -/
theorem covers_iff_lt_resume (hle : lo ≤ hi) {i : Nat} :
    Covers (lo, hi) i ↔ lo ≤ i ∧ i < resume lo hi := by
  unfold Covers resume
  split <;> omega

namespace Regex.MadeFrom

/-- Every search that finds a match moves the scan on. -/
theorem bounds_of_group? (h : r.MadeFrom config p) (hstart : start ≤ text.size)
    (hsome : (r.find text start).group? 0 = some (lo, hi)) :
    start ≤ lo ∧ lo ≤ hi ∧ hi ≤ text.size := by
  rcases h.sound_find hstart with hnone | hplaced
  · rw [hnone] at hsome
    cases hsome
  · obtain ⟨lo', hi', hbounds, hle⟩ := hplaced.exists_bounds
    obtain ⟨rfl, rfl⟩ := Prod.mk.inj (Option.some.inj (hbounds.symm.trans hsome))
    exact hle

/-- In front of a match a search finds it, or one that begins earlier. -/
theorem exists_bounds_of_matchAt? (h : r.MadeFrom config p) (hsticky : p.flags.sticky = false)
    (hfit : r.strategy.BodiesFit) {i : Nat} (hstart : start ≤ i) (hsize : i ≤ text.size)
    (hmatch : (p.matchAt? text i).isSome) :
    ∃ lo hi, (r.find text start).group? 0 = some (lo, hi) ∧ lo ≤ i := by
  have hgroups := (Source.wellFormed_of_parse h.parse).2
  have hle := Nat.le_trans hstart hsize
  cases hy : p.leftmost? text start with
  | none =>
    rw [(Pattern.leftmost?_eq_none_iff hsticky hle).mp hy i hstart hsize] at hmatch
    cases hmatch
  | some y =>
    obtain ⟨j, hfirst, -⟩ := Pattern.exists_of_leftmost? hle hy
    have hj : j ≤ i := by
      apply Nat.le_of_not_lt
      intro hlt
      rw [hfirst.earlier i hstart hlt] at hmatch
      cases hmatch
    have hfind := h.find_eq_leftmost? hfit hle
    simp only [hy] at hfind
    have hplaced := SearchResult.wellPlaced_of_mem_outcomes hgroups hfirst.start_le hfirst.le_size
      (fun htrue => by rw [hsticky] at htrue; cases htrue) (List.mem_of_head? hfirst.isMatch)
    obtain ⟨lo, hi, hbounds, -⟩ := hplaced.exists_bounds
    have hlo : lo = j := by
      have hzero := Pattern.start_of_matchAt? hgroups hfirst.le_size hfirst.isMatch
      simp only [SearchResult.group?, SearchResult.start, hzero] at hbounds
      grind
    rw [hfind]
    exact ⟨lo, hi, hbounds, hlo ▸ hj⟩

/-- From every position on there is one scan, and it does not search twice from one position. -/
theorem exists_scans (h : r.MadeFrom config p) (text : Text) (start : Nat) :
    ∃ calls, r.Scans text start calls ∧ calls.length ≤ text.size + 1 - start := by
  by_cases hstart : start ≤ text.size
  · cases hbounds : (r.find text start).group? 0 with
    | none =>
      refine ⟨_, .nothing hstart hbounds, ?_⟩
      rw [List.length_singleton]
      omega
    | some bounds =>
      obtain ⟨hlo, hle, -⟩ := h.bounds_of_group? hstart hbounds
      have hnext := (le_resume hle).1
      obtain ⟨calls, hcalls, hlength⟩ := h.exists_scans text (resume bounds.1 bounds.2)
      refine ⟨_, .found hstart hbounds hcalls, ?_⟩
      rw [List.length_cons]
      omega
  · exact ⟨[], .behind (by omega), Nat.zero_le _⟩
termination_by text.size + 1 - start

end Regex.MadeFrom

/-- A scan takes its course. -/
theorem Regex.Scans.unique {calls' : List (Nat × SearchResult)} (h : r.Scans text start calls)
    (h' : r.Scans text start calls') : calls = calls' := by
  induction h generalizing calls' with
  | behind hlt =>
    cases h' with
    | behind _ => rfl
    | nothing hle _ => omega
    | found hle _ _ => omega
  | nothing hle hnone =>
    cases h' with
    | behind hlt => omega
    | nothing _ _ => rfl
    | found _ hsome _ => cases hnone.symm.trans hsome
  | found hle hsome _ ih =>
    cases h' with
    | behind hlt => omega
    | nothing _ hnone => cases hnone.symm.trans hsome
    | found _ hsome' hrest =>
      obtain ⟨rfl, rfl⟩ := Prod.mk.inj (Option.some.inj (hsome.symm.trans hsome'))
      rw [ih hrest]

namespace Regex.Scans

variable (h : r.Scans text start calls)
include h

/-- The matches that a scan reports begin where it does or later. -/
theorem le_of_mem_reported (hmade : r.MadeFrom config p) {bounds : Nat × Nat}
    (hb : bounds ∈ reported calls) : start ≤ bounds.1 := by
  induction h with
  | behind _ => cases hb
  | nothing _ hnone => simp [reported, hnone] at hb
  | found hstart hsome _ ih =>
    obtain ⟨hlo, hle, -⟩ := hmade.bounds_of_group? hstart hsome
    rw [reported_cons hsome] at hb
    rcases List.mem_cons.mp hb with rfl | hb
    · exact hlo
    · have hnext := (le_resume hle).1
      have hlater := ih hb
      omega

/-- Its matches come one after the other. -/
theorem pairwise_reported (hmade : r.MadeFrom config p) :
    (reported calls).Pairwise Precedes := by
  induction h with
  | behind _ => exact List.Pairwise.nil
  | nothing _ hnone => simp [reported, hnone]
  | found hstart hsome hrest ih =>
    obtain ⟨-, hle, -⟩ := hmade.bounds_of_group? hstart hsome
    rw [reported_cons hsome]
    refine List.pairwise_cons.mpr ⟨fun later hlater => ?_, ih⟩
    obtain ⟨hlo, hhi⟩ := le_resume hle
    have hbehind := hrest.le_of_mem_reported hmade hlater
    exact ⟨Nat.lt_of_lt_of_le hlo hbehind, Nat.le_trans hhi hbehind⟩

/-- The matches of a regex are those of a scan. -/
theorem matchesFrom_eq (hmade : r.MadeFrom config p) :
    r.matchesFrom text start = (calls.map (·.2)).filter (·.group? 0 |>.isSome) := by
  induction h with
  | behind hlt => rw [matchesFrom, if_pos hlt, List.map_nil, List.filter_nil]
  | nothing hstart hnone =>
    rw [matchesFrom, if_neg (by omega)]
    simp [hnone]
  | @found start lo hi rest hstart hsome _ ih =>
    obtain ⟨hlo, hle, -⟩ := hmade.bounds_of_group? hstart hsome
    have hnext := (le_resume hle).1
    have hresume : max (start + 1) (if lo < hi then hi else hi + 1) = resume lo hi :=
      Nat.max_eq_right (Nat.lt_of_le_of_lt hlo hnext)
    rw [matchesFrom, if_neg (by omega)]
    simp only [hsome, hresume, ih, List.map_cons]
    rw [List.filter_cons_of_pos (by rw [hsome]; rfl)]

/-- A scan comes by every position from its start on at which the pattern matches. -/
theorem exists_covers (hmade : r.MadeFrom config p) (hsticky : p.flags.sticky = false)
    (hfit : r.strategy.BodiesFit) {i : Nat} (hsize : i ≤ text.size) (hstart : start ≤ i)
    (hmatch : (p.matchAt? text i).isSome) : ∃ bounds ∈ reported calls, Covers bounds i := by
  have hfound {start : Nat} (hle : start ≤ i) :
      ∃ lo hi, (r.find text start).group? 0 = some (lo, hi) ∧ lo ≤ i :=
    hmade.exists_bounds_of_matchAt? hsticky hfit hle hsize hmatch
  induction h with
  | behind hlt => omega
  | nothing _ hnone =>
    obtain ⟨lo, hi, hsome, -⟩ := hfound hstart
    cases hnone.symm.trans hsome
  | @found start lo hi rest hle hsome _ ih =>
    obtain ⟨lo', hi', hsome', hlo⟩ := hfound hstart
    obtain ⟨rfl, rfl⟩ := Prod.mk.inj (Option.some.inj (hsome.symm.trans hsome'))
    obtain ⟨-, hbounds, -⟩ := hmade.bounds_of_group? hle hsome
    rw [reported_cons hsome]
    by_cases hlt : i < resume lo hi
    · exact ⟨(lo, hi), List.mem_cons_self, (covers_iff_lt_resume hbounds).mpr ⟨hlo, hlt⟩⟩
    · obtain ⟨bounds, hmem, hcovers⟩ := ih (Nat.le_of_not_lt hlt)
      exact ⟨bounds, List.mem_cons_of_mem _ hmem, hcovers⟩

end Regex.Scans

end

/-- There is one scan of a text, and it searches at most once more than the text has units. Its
matches are those of the regex and come one after the other. They cover every position at which the
pattern matches, if the regex is not sticky and its look-around bodies can be told apart, for which
it is enough that automata may not have too many states. -/
theorem Engine.exists_scans_covers {config : Config} {e : Engine} (he : e.Reachable config)
    {s : Source} {r : Regex} (hr : (e.compile s).1 = .ok r) (text : Text) :
    ∃ calls, r.Scans text 0 calls ∧ (∀ calls', r.Scans text 0 calls' → calls' = calls) ∧
      calls.length ≤ text.size + 1 ∧
      r.matchesFrom text 0 = (calls.map (·.2)).filter (·.group? 0 |>.isSome) ∧
      (reported calls).Pairwise Precedes ∧
      (s.flags.sticky = false → config.maxAutomatonStates ≤ 65536 ∨ r.strategy.BodiesFit →
        ∃ p, s.parse = .ok p ∧ ∀ i ≤ text.size, (p.matchAt? text i).isSome →
          ∃ bounds ∈ reported calls, Covers bounds i) := by
  obtain ⟨p, rfl, hmade⟩ := he.exists_madeFrom hr
  obtain ⟨calls, hscans, hlength⟩ := hmade.exists_scans text 0
  refine ⟨calls, hscans, fun _ h => h.unique hscans, hlength, hscans.matchesFrom_eq hmade,
    hscans.pairwise_reported hmade, ?_⟩
  intro hsticky hfit
  have hfit : r.strategy.BodiesFit := hfit.elim hmade.bodiesFit_of_limit id
  rw [← Source.flags_of_parse hmade.parse] at hsticky
  exact ⟨p, hmade.parse, fun i hi => hscans.exists_covers hmade hsticky hfit hi (Nat.zero_le i)⟩

/-- In `abba` the scan of `(?<=a)b*` reports `bb` and the empty match behind the last `a`, which
covers the end of the text. -/
theorem Engine.exists_scans_covers_end :
    ∃ r, ((Engine.ofConfig {}).compile ⟨"(?<=a)b*", {}, {}⟩).1 = .ok r ∧
      ∃ calls, r.Scans #[97, 98, 98, 97] 0 calls ∧ reported calls = [(1, 3), (4, 4)] ∧
        ∃ bounds ∈ reported calls, Covers bounds 4 := by
  have hok : (((Engine.ofConfig {}).compile ⟨"(?<=a)b*", {}, {}⟩).1.toOption.any fun r =>
      decide (r.find #[97, 98, 98, 97] 0 = ⟨#[1, 3]⟩ ∧
        r.find #[97, 98, 98, 97] 3 = ⟨#[4, 4]⟩)) = true := by cbv
  have hmatch : ((Source.parse ⟨"(?<=a)b*", {}, {}⟩).toOption.any fun p =>
      (p.matchAt? #[97, 98, 98, 97] 4).isSome) = true := by cbv
  obtain ⟨r, hr, hok⟩ := exists_eq_ok_of_any hok
  obtain ⟨hfirst, hsecond⟩ := of_decide_eq_true hok
  obtain ⟨calls, hscans, hunique, -, -, -, hcovers⟩ :=
    Engine.exists_scans_covers .new hr #[97, 98, 98, 97]
  obtain ⟨p, hparse, hcovers⟩ := hcovers rfl (.inl (by decide))
  obtain ⟨p', hparse', hmatch⟩ := exists_eq_ok_of_any hmatch
  obtain rfl := Except.ok.inj (hparse.symm.trans hparse')
  have hbounds : (r.find #[97, 98, 98, 97] 0).group? 0 = some (1, 3) := by rw [hfirst]; rfl
  have hbounds' : (r.find #[97, 98, 98, 97] 3).group? 0 = some (4, 4) := by rw [hsecond]; rfl
  have hcourse : r.Scans #[97, 98, 98, 97] 0
      [(0, r.find #[97, 98, 98, 97] 0), (3, r.find #[97, 98, 98, 97] 3)] :=
    .found (by decide) hbounds (.found (by decide) hbounds' (.behind (by decide)))
  refine ⟨r, hr, calls, hscans, ?_, hcovers 4 (Nat.le_refl 4) hmatch⟩
  rw [← hunique _ hcourse, hfirst, hsecond]
  rfl

end UnitRegex
