import Mathlib
import UnitRegex.Proofs.Engine.Offsets
import UnitRegex.Proofs.Engine.Substring
import UnitRegex.Proofs.Matching.WordBoundary
import UnitRegex.Proofs.Pattern.Respelling

/-!
One notion of a word character. Unless case is ignored in unicode mode, `\b` finds what its spelling
by look-around finds, and `[^\w]` may be written for `\W` outside a class. In unicode mode without
case, `\w` also stands for two units whose case forms are word characters, `\b` does not know of
them, and `\W` stands for the case forms of these two.
-/

namespace UnitRegex

section

variable {r r' : Regex} {config config' : Config} {p p' : Pattern} {f : Flags} {o : Options}

/-! ### Boundaries -/

/-- What a regex finds depends on where its pattern matches. -/
theorem Regex.MadeFrom.find_congr (h : r.MadeFrom config p) (h' : r'.MadeFrom config' p')
    (hfit : r.strategy.BodiesFit) (hfit' : r'.strategy.BodiesFit)
    (hsticky : p'.flags.sticky = p.flags.sticky) {text : Text}
    (hat : ∀ i, p'.matchAt? text i = p.matchAt? text i) (start : Nat) :
    r'.find text start = r.find text start := by
  by_cases hstart : start ≤ text.size
  · rw [h.find_eq_leftmost? hfit hstart, h'.find_eq_leftmost? hfit' hstart, Pattern.leftmost?,
      Pattern.leftmost?, hsticky, funext hat]
  · rw [Regex.find, Regex.find, if_pos (by omega), if_pos (by omega)]

/-- Where a pattern matches depends on the outcomes of its body. -/
theorem Pattern.matchAt?_congr {text : Text} (hgroups : p'.groupCount = p.groupCount)
    (h : p'.body.outcomes p'.flags text .forward = p.body.outcomes p.flags text .forward)
    (i : Nat) : p'.matchAt? text i = p.matchAt? text i := by
  simp only [matchAt?, outcomes, root, Term.outcomes, h, hgroups]

theorem Source.parse_wordBoundary (f : Flags) (o : Options) :
    Source.parse ⟨"\\b", f, o⟩ =
      .ok { body := .one (.cons (.anchor .wordBoundary) .nil)
            flags := f, groupCount := 1, groupNames := [], context := 0 } := by
  cbv

theorem Source.parse_borders (f : Flags) (o : Options) :
    Source.parse ⟨"(?:(?<=\\w)(?!\\w)|(?<!\\w)(?=\\w))", f, o⟩ =
      .ok { body := .borders (f.closure .word)
            flags := f, groupCount := 1, groupNames := [], context := 1 } := by
  cbv

/-- A word boundary alone has no look-around bodies. -/
theorem Regex.MadeFrom.bodiesFit_anchor (h : r.MadeFrom config p)
    (hbody : p.body = .one (.cons (.anchor .wordBoundary) .nil)) : r.strategy.BodiesFit := by
  have hparts : ∀ x ∈ p.body.parts,
      (Draft.Invariant.among config.maxAutomatonStates [] []).Admits x := by
    intro x hx
    rw [hbody] at hx
    obtain rfl := List.mem_singleton.mp hx
    trivial
  exact h.bodiesFit_of_among hparts (by simp) (by simp)

/-- Its look-arounds have one body each way. -/
theorem Regex.MadeFrom.bodiesFit_borders (h : r.MadeFrom config p) {set : CharSet}
    (hbody : p.body = .borders set) : r.strategy.BodiesFit := by
  have hparts : ∀ x ∈ p.body.parts,
      (Draft.Invariant.among config.maxAutomatonStates [[set]] [[[set]]]).Admits x := by
    intro x hx
    simp only [hbody, Choice.borders, Choice.parts, Branch.parts, Term.parts, List.append_nil,
      List.cons_append, List.nil_append, List.mem_cons, List.not_mem_nil, or_false] at hx
    rcases hx with rfl | rfl | rfl | rfl
    all_goals
      intro _ hsome
      cases hsome
      exact List.mem_singleton_self _
  exact h.bodiesFit_of_among hparts (by simp) (by simp)

/-- The two spellings of a word boundary match at the same positions. -/
theorem Engine.find_borders {e e' : Engine} (he : e.Reachable config) (he' : e'.Reachable config')
    (hf : f.ignoreCase = true → f.unicode = false) (o o' : Options) :
    ∃ r r', (e.compile ⟨"\\b", f, o⟩).1 = .ok r ∧
      (e'.compile ⟨"(?:(?<=\\w)(?!\\w)|(?<!\\w)(?=\\w))", f, o'⟩).1 = .ok r' ∧
      r'.groupCount = r.groupCount ∧
      ∀ text start, r'.find text start = r.find text start := by
  obtain ⟨r, hr, -, hmade⟩ := he.compile_of_parse (Source.parse_wordBoundary f o)
  obtain ⟨r', hr', -, hmade'⟩ := he'.compile_of_parse (Source.parse_borders f o')
  refine ⟨r, r', hr, hr', hmade'.groupCount.trans hmade.groupCount.symm, fun text start => ?_⟩
  apply hmade.find_congr hmade' (hmade.bodiesFit_anchor rfl) (hmade'.bodiesFit_borders rfl) rfl
  intro i
  apply Pattern.matchAt?_congr
  · rfl
  · exact (Choice.outcomes_wordBoundary f fun c => by
      rw [Flags.closure_eq hf CharSet.folded_word, CharSet.contains_word]).symm

/-! ### Complements -/

/-- Sources that are read alike are matched in the same way. -/
theorem Source.compile_congr {s s' : Source} (hparse : s.parse = .ok p) (hparse' : s'.parse = .ok p)
    (hoptions : s'.options = s.options) {serial : Nat} (serial' : Nat)
    (h : (s.compile config .backtracking serial).1 = .ok r) :
    ∃ r', (s'.compile config .backtracking serial').1 = .ok r' ∧ r'.groupCount = r.groupCount ∧
      r'.strategy = r.strategy := by
  simp only [compile, hparse, hparse', hoptions, Fallback.outcome_backtracking hparse,
    Fallback.outcome_backtracking hparse'] at h ⊢
  split at h
  · rename_i hforced
    rw [if_pos hforced]
    cases h
    exact ⟨_, rfl, rfl, rfl⟩
  · rename_i hforced
    rw [if_neg hforced]
    rcases hbuild : (TableMatcher.build p config).run.run [] with ⟨_ | _, events⟩
    · simp only [hbuild] at h ⊢
      cases h
      exact ⟨_, rfl, rfl, rfl⟩
    · simp only [hbuild] at h ⊢
      cases h
      exact ⟨_, rfl, rfl, rfl⟩

theorem Engine.compile_congr {e e' : Engine} (he : e.Reachable config) (he' : e'.Reachable config)
    {s s' : Source} (hparse : s.parse = .ok p) (hparse' : s'.parse = .ok p)
    (hoptions : s'.options = s.options) (h : (e.compile s).1 = .ok r) :
    ∃ r', (e'.compile s').1 = .ok r' ∧ r'.groupCount = r.groupCount ∧
      ∀ text start, r'.find text start = r.find text start := by
  obtain ⟨serial, hserial⟩ := (he.faithful.compile s).1
  obtain ⟨serial', hserial'⟩ := (he'.faithful.compile s').1
  rw [← hserial] at h
  obtain ⟨r', hr', hgroups, hstrategy⟩ := Source.compile_congr hparse hparse' hoptions serial' h
  refine ⟨r', hserial' ▸ hr', hgroups, fun text start => ?_⟩
  rw [Regex.find, Regex.find, hstrategy]

end

/-- Unless case is ignored in unicode mode, a word boundary is what its spelling by look-around
finds, and wherever `\W` stands outside a class `[^\w]` may stand instead. -/
theorem Engine.wordCharacters_agree {config : Config} {e e' : Engine} (he : e.Reachable config)
    (he' : e'.Reachable config) {f : Flags} (hf : f.ignoreCase = true → f.unicode = false)
    (o : Options) :
    (∃ r r', (e.compile ⟨"\\b", f, o⟩).1 = .ok r ∧
      (e'.compile ⟨"(?:(?<=\\w)(?!\\w)|(?<!\\w)(?=\\w))", f, o⟩).1 = .ok r' ∧
      r'.groupCount = r.groupCount ∧ ∀ text start, r'.find text start = r.find text start) ∧
    ∀ front back : String, inClassAfter false front.toList = some false →
      ∀ r, (e.compile ⟨front ++ "\\W" ++ back, f, o⟩).1 = .ok r →
        ∃ r', (e'.compile ⟨front ++ "[^\\w]" ++ back, f, o⟩).1 = .ok r' ∧
          r'.groupCount = r.groupCount ∧ ∀ text start, r'.find text start = r.find text start := by
  refine ⟨Engine.find_borders he he' hf o o, ?_⟩
  intro front back hfront r hr
  obtain ⟨p, hsource, hmade⟩ := he.exists_madeFrom hr
  have hparse := hsource ▸ hmade.parse
  obtain ⟨n, m, hrespelled⟩ := respelled_of_inClassAfter back.toList hfront
  have hrespelled : Respelled false n m (front ++ "\\W" ++ back).toList
      (front ++ "[^\\w]" ++ back).toList := by
    rw [String.toList_append, String.toList_append, String.toList_append, String.toList_append,
      List.append_assoc, List.append_assoc]
    exact hrespelled
  exact Engine.compile_congr he he' hparse (Source.parse_of_respelled hf hrespelled hparse) rfl hr

/-- Under `u` a boundary is found in front of `a` either way, and the second `\W` in `[\W](\W+)\1`
may be written as a class. -/
theorem Engine.wordCharacters_agree_unicode :
    inClassAfter false "[\\W](".toList = some false ∧
    (∃ r r', ((Engine.ofConfig {}).compile ⟨"\\b", { unicode := true }, {}⟩).1 = .ok r ∧
      ((Engine.ofConfig {}).compile
        ⟨"(?:(?<=\\w)(?!\\w)|(?<!\\w)(?=\\w))", { unicode := true }, {}⟩).1 = .ok r' ∧
      r.find #[45, 97] 0 = ⟨#[1, 1]⟩ ∧ r'.find #[45, 97] 0 = ⟨#[1, 1]⟩) ∧
    ∃ r r', ((Engine.ofConfig {}).compile
        ⟨"[\\W](\\W+)\\1", { unicode := true }, {}⟩).1 = .ok r ∧
      ((Engine.ofConfig {}).compile
        ⟨"[\\W]([^\\w]+)\\1", { unicode := true }, {}⟩).1 = .ok r' ∧
      r.find #[97, 45, 33, 33] 0 = ⟨#[1, 4, 2, 3]⟩ ∧
      r'.find #[97, 45, 33, 33] 0 = ⟨#[1, 4, 2, 3]⟩ := by
  have hfront : inClassAfter false "[\\W](".toList = some false := by decide
  have hboundary : (((Engine.ofConfig {}).compile
      ⟨"\\b", { unicode := true }, {}⟩).1.toOption.any fun r =>
        decide (r.find #[45, 97] 0 = ⟨#[1, 1]⟩)) = true := by
    cbv
  have hcomplement : (((Engine.ofConfig {}).compile
      ⟨"[\\W](\\W+)\\1", { unicode := true }, {}⟩).1.toOption.any fun r =>
        decide (r.find #[97, 45, 33, 33] 0 = ⟨#[1, 4, 2, 3]⟩)) = true := by
    cbv
  obtain ⟨b, hb, hboundary⟩ := exists_eq_ok_of_any hboundary
  obtain ⟨r, hr, hcomplement⟩ := exists_eq_ok_of_any hcomplement
  obtain ⟨⟨b', b'', hb', hb'', -, hborders⟩, hrespelled⟩ := Engine.wordCharacters_agree
    (.new : Engine.Reachable {} _) .new (f := { unicode := true }) (by decide) {}
  obtain rfl := Except.ok.inj (hb.symm.trans hb')
  obtain ⟨r', hr', -, hsame⟩ := hrespelled "[\\W](" "+)\\1" hfront r hr
  have hboundary := of_decide_eq_true hboundary
  have hcomplement := of_decide_eq_true hcomplement
  exact ⟨hfront, ⟨b, b'', hb, hb'', hboundary, (hborders _ 0).trans hboundary⟩,
    r, r', hr, hr', hcomplement, (hsame _ 0).trans hcomplement⟩

/-! ### Without case in unicode mode -/

theorem Source.parse_notWord (f : Flags) (o : Options) :
    Source.parse ⟨"\\W", f, o⟩ =
      .ok { body := .one (.cons (.unit (f.closure CharSet.word.complement)) .nil)
            flags := f, groupCount := 1, groupNames := [], context := 0 } := by
  cbv

theorem Source.parse_exceptWord (f : Flags) (o : Options) :
    Source.parse ⟨"[^\\w]", f, o⟩ =
      .ok { body := .one (.cons (.unit (f.closure .word).complement) .nil)
            flags := f, groupCount := 1, groupNames := [], context := 0 } := by
  obtain ⟨_, _, _, _, unicode, _⟩ := f
  cases unicode <;> cbv

theorem Regex.MadeFrom.bodiesFit_plain {r : Regex} {config : Config} {p : Pattern}
    (h : r.MadeFrom config p) {rows : List (List CharSet)} (hplain : p.body.plain? = some rows) :
    r.strategy.BodiesFit :=
  h.bodiesFit_of_among (p.body.admits_of_plain? hplain) (Nat.zero_le _) (Nat.zero_le _)

/-- A match at the start of a search is what the search finds. -/
theorem Regex.MadeFrom.find_of_matchAt? {r : Regex} {config : Config} {p : Pattern}
    (h : r.MadeFrom config p) (hfit : r.strategy.BodiesFit) (hsticky : p.flags.sticky = false)
    {text : Text} (cursor : Nat) {slots : Slots}
    (hmatch : p.matchAt? text 0 = some ⟨cursor, slots⟩) : r.find text 0 = ⟨slots⟩ := by
  have hgroups := (Source.wellFormed_of_parse h.parse).2
  rw [h.find_eq_leftmost? hfit (Nat.zero_le _),
    ((Pattern.matchAt?_eq_some_iff hgroups hsticky (Nat.zero_le _)).mp hmatch).1]

/-- A pattern without groups that only tests positions has empty matches. -/
theorem Pattern.matchAt?_of_check {p : Pattern} {text : Text} {test : Nat → Bool}
    (hbody : p.body.outcomes p.flags text .forward = .check test) (hone : p.groupCount = 1)
    {i : Nat} (htest : test i = true) : p.matchAt? text i = some ⟨i, #[i, i]⟩ := by
  rw [matchAt?, outcomes, root, Term.outcomes, hbody, hone, Behavior.pass, Behavior.check]
  simp [MatchState.clear, htest]
  rfl

/-- Without case in unicode mode the long `ſ` is equivalent to `s`. The look-arounds count it among
the word characters, and `\W` counts `s` among the others. -/
theorem Engine.find_caseless {config : Config} {e : Engine} (he : e.Reachable config) {f : Flags}
    (hcase : f.ignoreCase = true) (hunicode : f.unicode = true) (hsticky : f.sticky = false)
    (o : Options) :
    ∃ r q q', (e.compile ⟨"(?:(?<=\\w)(?!\\w)|(?<!\\w)(?=\\w))", f, o⟩).1 = .ok r ∧
      (e.compile ⟨"\\W", f, o⟩).1 = .ok q ∧ (e.compile ⟨"[^\\w]", f, o⟩).1 = .ok q' ∧
      r.find #[0x17F] 0 = ⟨#[0, 0]⟩ ∧ q.find #[0x73] 0 = ⟨#[0, 1]⟩ ∧
      q'.find #[0x73] 0 = .noMatch := by
  have hsame : canonicalUnit f.unicode 0x17F = canonicalUnit f.unicode 0x73 := by
    rw [hunicode]
    decide +kernel
  obtain ⟨r, hr, -, hmade⟩ := he.compile_of_parse (Source.parse_borders f o)
  obtain ⟨q, hq, -, hmadeq⟩ := he.compile_of_parse (Source.parse_notWord f o)
  obtain ⟨q', hq', -, hmadeq'⟩ := he.compile_of_parse (Source.parse_exceptWord f o)
  refine ⟨r, q, q', hr, hq, hq', ?_, ?_, ?_⟩
  · have hlong : (f.closure .word).contains 0x17F = true :=
      (Flags.contains_closure hcase).mpr ⟨0x73, hsame, by rw [CharSet.contains_word]; decide⟩
    refine hmade.find_of_matchAt? (hmade.bodiesFit_borders rfl) hsticky 0
      (Pattern.matchAt?_of_check (Choice.outcomes_borders f _) rfl ?_)
    simp [Text.beside, hlong]
  · have hs : (f.closure CharSet.word.complement).contains 0x73 = true :=
      (Flags.contains_closure hcase).mpr ⟨0x17F, hsame.symm, by
        rw [CharSet.contains_complement, CharSet.contains_word]
        decide⟩
    have hplain : Choice.plain? (.one (.cons (.unit (f.closure CharSet.word.complement)) .nil)) =
        some [[f.closure CharSet.word.complement]] := rfl
    refine hmadeq.find_of_matchAt? (hmadeq.bodiesFit_plain hplain) hsticky 1 ?_
    rw [Pattern.matchAt?_of_plain? hplain rfl]
    simp [Text.matchesAt, hs]
  · have hs : (f.closure .word).contains 0x73 = true :=
      (Flags.contains_closure hcase).mpr ⟨0x73, rfl, by rw [CharSet.contains_word]; decide⟩
    have hplain : Choice.plain? (.one (.cons (.unit (f.closure .word).complement) .nil)) =
        some [[(f.closure .word).complement]] := rfl
    rw [hmadeq'.find_eq_leftmost? (hmadeq'.bodiesFit_plain hplain) (Nat.zero_le _),
      (Pattern.leftmost?_eq_none_iff hsticky (Nat.zero_le _)).mpr]
    intro i _ _
    rw [Pattern.matchAt?_of_plain? hplain rfl]
    cases i <;> simp [Text.matchesAt, CharSet.contains_complement, hs]

/-- Without case in unicode mode `\W` matches `s`, which `[^\w]` does not, and `\b` finds no
boundary at the long `ſ`, at which its spelling by look-around finds one. -/
theorem Engine.wordCharacters_differ :
    ∃ r r' q q', ((Engine.ofConfig {}).compile
        ⟨"\\b", { ignoreCase := true, unicode := true }, {}⟩).1 = .ok r ∧
      ((Engine.ofConfig {}).compile ⟨"(?:(?<=\\w)(?!\\w)|(?<!\\w)(?=\\w))",
        { ignoreCase := true, unicode := true }, {}⟩).1 = .ok r' ∧
      r.find #[0x17F] 0 = .noMatch ∧ r'.find #[0x17F] 0 = ⟨#[0, 0]⟩ ∧
      ((Engine.ofConfig {}).compile
        ⟨"\\W", { ignoreCase := true, unicode := true }, {}⟩).1 = .ok q ∧
      ((Engine.ofConfig {}).compile
        ⟨"[^\\w]", { ignoreCase := true, unicode := true }, {}⟩).1 = .ok q' ∧
      q.find #[0x73] 0 = ⟨#[0, 1]⟩ ∧ q'.find #[0x73] 0 = .noMatch := by
  have hok : (((Engine.ofConfig {}).compile
      ⟨"\\b", { ignoreCase := true, unicode := true }, {}⟩).1.toOption.any fun r =>
        decide (r.find #[0x17F] 0 = .noMatch)) = true := by
    cbv
  obtain ⟨r, hr, hok⟩ := exists_eq_ok_of_any hok
  obtain ⟨r', q, q', hr', hq, hq', hfind⟩ := Engine.find_caseless
    (.new : Engine.Reachable {} (Engine.ofConfig {})) (f := { ignoreCase := true, unicode := true })
    rfl rfl rfl {}
  exact ⟨r, r', q, q', hr, hr', of_decide_eq_true hok, hfind.1, hq, hq', hfind.2⟩

end UnitRegex
