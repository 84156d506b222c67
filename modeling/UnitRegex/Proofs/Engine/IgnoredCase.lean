import UnitRegex.Proofs.Engine.Agreement
import UnitRegex.Proofs.Engine.Compilations
import UnitRegex.Proofs.Matching.CaseAlike
import UnitRegex.Proofs.Pattern.Passes
import UnitRegex.Proofs.Pattern.Sticky
import UnitRegex.Proofs.Table.CongruentWalks

/-!
Regexes that ignore case find the same in texts whose units are case-equivalent one by one. Every set
of such a regex is closed under case equivalence, those of its tables as well as those of its pattern.
-/

namespace UnitRegex

/-- No closed set tells case-equivalent units apart. -/
theorem Text.CaseAlike.congruent {unicode : Bool} {x y : Text} (h : x.CaseAlike unicode y) :
    x.Congruent (CharSet.Folded unicode) y where
  size_eq := h.size_eq
  any_eq _ hset := h.any_eq hset

namespace Source

variable {s : Source} {p : Pattern}

/-- In the pattern of a source that ignores case every set is closed under case equivalence. -/
theorem folded_of_parse (hparse : s.parse = .ok p) (hcase : s.flags.ignoreCase = true)
    {set : CharSet} (hset : .unit set ∈ p.body.leaves) : set.Folded s.flags.unicode := by
  obtain ⟨-, -, -, -, hleaves⟩ := outlined_of_parse hparse
  exact hleaves _ hset hcase

/-- Without the word boundaries of unicode mode no leaf tells case-equivalent units apart. -/
theorem caseBlind_of_parse (hparse : s.parse = .ok p) (hcase : s.flags.ignoreCase = true)
    (hword : s.flags.unicode = false ∨ p.hasWordBoundary = false) :
    ∀ leaf ∈ p.body.leaves, leaf.CaseBlind s.flags.unicode := by
  intro leaf hleaf
  cases leaf with
  | unit set => exact folded_of_parse hparse hcase hleaf
  | anchor kind =>
    apply hword.imp_right
    intro hnone
    exact eq_false_of_ne_true (List.any_eq_false.mp hnone _ hleaf)
  | backReference n => trivial

/-- The automata of a source that ignores case have closed sets only. -/
theorem tests_of_build (hparse : s.parse = .ok p) (hcase : s.flags.ignoreCase = true)
    {q : NumberedPattern} (hnumber : NumberedPattern.number { p with } = .ok q) {config : Config}
    {direction : Direction} {nfa : Nfa} (hbuild : Nfa.build q config direction = .ok nfa) :
    nfa.Tests (CharSet.Folded s.flags.unicode) := by
  have hq : q = ⟨p, true⟩ := by
    cases hnumber
    rfl
  subst hq
  have hleaves (set : CharSet) (hset : .unit set ∈ p.body.leaves) :=
    folded_of_parse hparse hcase hset
  exact (Nfa.build_spec _ CharSet.folded_full CharSet.folded_lineTerminators.complement hleaves
    rfl).1 nfa hbuild

end Source

/-- The leftmost match is the same in case-equivalent texts. -/
theorem Pattern.leftmost?_caseAlike {p : Pattern} (hcase : p.flags.ignoreCase = true)
    (hleaves : ∀ leaf ∈ p.body.leaves, leaf.CaseBlind p.flags.unicode) {x y : Text}
    (h : x.CaseAlike p.flags.unicode y) (start : Nat) :
    p.leftmost? y start = p.leftmost? x start := by
  have houtcomes : p.outcomes y = p.outcomes x :=
    p.root.outcomes_caseAlike h hcase .forward hleaves
  have hat : p.matchAt? y = p.matchAt? x := by
    funext i
    rw [matchAt?, matchAt?, houtcomes]
  rw [leftmost?, leftmost?, hat, h.size_eq]

/-- A search by tables finds the same in texts that no set of its automaton tells apart, if the
leftmost match is the same. -/
theorem TableMatcher.Built.find_congr {s : Source} {p : Pattern} {config : Config} {m : TableMatcher}
    {q : NumberedPattern} (h : Built p config m q) (hparse : s.parse = .ok p)
    {kind : CharSet → Prop} (htests : m.nfa.Tests kind) {x y : Text} (hsame : x.Congruent kind y)
    {start : Nat} (hstart : start ≤ x.size) (hleftmost : p.leftmost? y start = p.leftmost? x start) :
    m.find y start = m.find x start := by
  rcases h.looksFit_or hparse with ⟨hbehind, hlooks⟩ | ⟨hpaths, hbackward⟩
  · have hstart' : start ≤ y.size := hsame.size_eq ▸ hstart
    rw [h.find_eq_leftmost?_of_looksFit hparse hbehind hlooks hstart,
      h.find_eq_leftmost?_of_looksFit hparse hbehind hlooks hstart', hleftmost]
  · -- The captures are found from the end that the forward table tells, right or not.
    rw [h.find_eq_of_none hpaths hbackward, h.find_eq_of_none hpaths hbackward,
      m.nfa.lastEnd?_congr htests hsame h.forward]
    simp only [simulate, m.nfa.findSlots_congr htests hsame]

/-- A regex that ignores case finds the same in texts whose units are case-equivalent one by one,
unless it tests for word boundaries in unicode mode. -/
theorem Engine.find_caseAlike {config : Config} {e : Engine} (he : e.Reachable config) {s : Source}
    {p : Pattern} (hparse : s.parse = .ok p) {r : Regex} (hr : (e.compile s).1 = .ok r)
    (hcase : s.flags.ignoreCase = true)
    (hword : s.flags.unicode = false ∨ p.hasWordBoundary = false) {x y : Text}
    (h : x.CaseAlike s.flags.unicode y) (start : Nat) : r.find y start = r.find x start := by
  obtain ⟨p', rfl, hmade⟩ := he.exists_madeFrom hr
  obtain rfl := Except.ok.inj (hparse.symm.trans hmade.parse)
  have hflags := Source.flags_of_parse hparse
  have hleaves := Source.caseBlind_of_parse hparse hcase hword
  have hleftmost (start : Nat) : p.leftmost? y start = p.leftmost? x start :=
    Pattern.leftmost?_caseAlike (hflags ▸ hcase) (hflags ▸ hleaves) (hflags ▸ h) start
  rw [Regex.find, Regex.find, h.size_eq]
  split
  · rfl
  · rename_i hle
    have hstart : start ≤ x.size := Nat.le_of_not_lt hle
    rcases hmade.strategy with hfallback | ⟨m, htables, hbuild⟩
    · simp only [hfallback, p.find_eq_leftmost? x hstart,
        p.find_eq_leftmost? y (h.size_eq ▸ hstart), hleftmost]
    · obtain ⟨q, hbuilt⟩ := TableMatcher.built_of_build hbuild
      have htests := Source.tests_of_build hparse hcase hbuilt.number hbuilt.nfa
      simp only [htables]
      exact hbuilt.find_congr hparse htests h.congruent hstart (hleftmost start)

/-- Without case `(.)\1\b` finds all of `Aa`, as it finds all of `aa`. -/
theorem Engine.find_caseAlike_backReference :
    ∃ r, ((Engine.ofConfig {}).compile ⟨"(.)\\1\\b", { ignoreCase := true }, {}⟩).1 = .ok r ∧
      r.find #[97, 97] 0 = ⟨#[0, 2, 0, 1]⟩ ∧ r.find #[65, 97] 0 = ⟨#[0, 2, 0, 1]⟩ := by
  have hok : (((Engine.ofConfig {}).compile
      ⟨"(.)\\1\\b", { ignoreCase := true }, {}⟩).1.toOption.any fun r =>
        decide (r.find #[97, 97] 0 = ⟨#[0, 2, 0, 1]⟩)) = true := by
    cbv
  obtain ⟨r, hr, hok⟩ := exists_eq_ok_of_any hok
  have hfind := of_decide_eq_true hok
  obtain ⟨p, hsource, hmade⟩ := Engine.Reachable.exists_madeFrom .new hr
  have halike : Text.CaseAlike false #[97, 97] #[65, 97] := by decide +kernel
  have hsame := Engine.find_caseAlike .new (hsource ▸ hmade.parse) hr rfl (.inl rfl) halike 0
  exact ⟨r, hr, hfind, hsame.trans hfind⟩

end UnitRegex
