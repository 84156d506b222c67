import UnitRegex.Engine.Regex
import UnitRegex.Proofs.Paths.Lookup
import UnitRegex.Proofs.Table.MatchStarts

/-!
Matching by tables finds what backtracking finds. The forward table knows the end of the leftmost
match; the table of paths, the bounds alone, and a simulation up to the end, from the start or from
where the search begins, all give its captures.
-/

namespace UnitRegex

namespace Construction

variable {α β : Type} {log : List Event}

theorem bind_eq_ok {x : Construction α} {f : α → Construction β} {b : β}
    (h : ((x >>= f).run.run log).1 = .ok b) :
    ∃ a after, (x.run.run log).1 = .ok a ∧ ((f a).run.run after).1 = .ok b := by
  rw [ExceptT.run_bind, StateT.run_bind] at h
  cases hx : x.run.run log with
  | mk r after =>
    rw [hx] at h
    cases r with
    | ok a => exact ⟨a, after, rfl, h⟩
    | error e => cases h

theorem ite_bind_eq_ok {c : Prop} [Decidable c] {x y : Construction α} {f : α → Construction β}
    {b : β} (h : ((if c then x >>= f else y >>= f).run.run log).1 = .ok b) :
    ∃ a after, ((if c then x else y).run.run log).1 = .ok a ∧ ((f a).run.run after).1 = .ok b := by
  split at h
  · rename_i hc
    rw [if_pos hc]
    exact bind_eq_ok h
  · rename_i hc
    rw [if_neg hc]
    exact bind_eq_ok h

theorem ofExcept_eq_ok {ε : Type} {wrap : ε → Refusal} {r : Except ε α} {a : α}
    (h : ((ofExcept wrap r).run.run log).1 = .ok a) : r = .ok a := by
  cases r with
  | ok b =>
    obtain rfl : b = a := Except.ok.inj h
    rfl
  | error e => cases h

end Construction

namespace TableMatcher

/-- What a matcher is made of. -/
structure Built (p : Pattern) (config : Config) (m : TableMatcher) (q : NumberedPattern) :
    Prop where
  number : NumberedPattern.number { p with } = .ok q
  nfa : Nfa.build q config .forward = .ok m.nfa
  forward : m.nfa.forwardTable config.tableLimit = .ok m.forward
  paths : ∀ t, m.paths = some t → PathTable.build m.nfa config = .ok (some t)
  backward : ∀ dfa, m.backward = some dfa → ∃ back, Nfa.build q config .backward = .ok back ∧
    back.backwardTable config.tableLimit = .ok dfa
  /-- Starts are only looked for backwards where the pattern looks around nowhere. -/
  lookless : m.backward.isSome = true → m.nfa.lookBehinds = [] ∧ m.nfa.lookAheads = []
  sticky : m.sticky = p.flags.sticky

theorem buildPaths_eq_ok {nfa : Nfa} {config : Config} {log : List Event} {paths : Option PathTable}
    (h : ((buildPaths nfa config).run.run log).1 = .ok paths) {t : PathTable}
    (ht : paths = some t) : PathTable.build nfa config = .ok (some t) := by
  subst ht
  unfold buildPaths at h
  split at h
  · obtain ⟨-, _, -, h⟩ := Construction.bind_eq_ok h
    cases h
  · cases h
  · rename_i paths hbuild
    obtain ⟨-, _, -, h⟩ := Construction.bind_eq_ok h
    cases h
    exact hbuild

theorem buildBackward_eq_ok {p : NumberedPattern} {config : Config} {log : List Event} {dfa : Dfa}
    (h : ((buildBackward p config).run.run log).1 = .ok dfa) :
    ∃ back, Nfa.build p config .backward = .ok back ∧
      back.backwardTable config.tableLimit = .ok dfa := by
  obtain ⟨back, _, hback, h⟩ := Construction.bind_eq_ok h
  obtain ⟨table, _, htable, h⟩ := Construction.bind_eq_ok h
  obtain ⟨-, _, -, h⟩ := Construction.bind_eq_ok h
  cases h
  exact ⟨back, Construction.ofExcept_eq_ok hback, Construction.ofExcept_eq_ok htable⟩

theorem built_of_build {p : Pattern} {config : Config} {log : List Event} {m : TableMatcher}
    (h : ((build p config).run.run log).1 = .ok m) : ∃ q, Built p config m q := by
  obtain ⟨q, _, hnumber, h⟩ := Construction.bind_eq_ok h
  obtain ⟨nfa, _, hnfa, h⟩ := Construction.bind_eq_ok h
  obtain ⟨forward, _, hforward, h⟩ := Construction.bind_eq_ok h
  obtain ⟨paths, _, hpaths, h⟩ := Construction.ite_bind_eq_ok h
  obtain ⟨backward, _, hbackward, h⟩ := Construction.ite_bind_eq_ok h
  cases h
  have hnumber := Construction.ofExcept_eq_ok hnumber
  refine ⟨q, hnumber, Construction.ofExcept_eq_ok hnfa, Construction.ofExcept_eq_ok hforward, ?_,
    ?_, ?_, ?_⟩
  · intro t ht
    split at hpaths
    · exact buildPaths_eq_ok hpaths ht
    · cases hpaths
      cases ht
  · intro dfa hdfa
    split at hbackward
    · rw [map_eq_pure_bind] at hbackward
      obtain ⟨table, _, htable, hbackward⟩ := Construction.bind_eq_ok hbackward
      cases hbackward
      cases hdfa
      exact buildBackward_eq_ok htable
    · cases hbackward
      cases hdfa
  · intro hsome
    split at hbackward
    · rename_i hlooks
      simp only [Bool.and_eq_true, List.isEmpty_iff] at hlooks
      exact ⟨hlooks.1.2, hlooks.2⟩
    · cases hbackward
      cases hsome
  · cases hnumber
    rfl

end TableMatcher

/-- The only group of a match is known by its bounds. -/
theorem SearchResult.ofBounds_eq {slots : Slots} {start stop : Nat} (hsize : slots.size = 2)
    (hstart : slots.start 0 = start) (hstop : slots.stop 0 = stop) :
    ofBounds start stop 1 = ⟨slots⟩ := by
  have h0 : slots[0] = start := by simpa [Slots.start, hsize] using hstart
  have h1 : slots[1] = stop := by simpa [Slots.stop, hsize] using hstop
  rw [ofBounds]
  congr 1
  refine Array.ext (by simp [Slots.setStart, Slots.setStop, Slots.unset, hsize]) fun k _ hk => ?_
  have hcases : k = 0 ∨ k = 1 := by omega
  rcases hcases with rfl | rfl
  · simp [Slots.setStart, Slots.setStop, Slots.unset, h0]
  · simp [Slots.setStart, Slots.setStop, Slots.unset, h1]

namespace Pattern.Compiled

variable {p : Pattern} {nfa : Nfa} {text : Text} {start i : Nat} {y : MatchState}

/-- From the start of the leftmost match a simulation up to its end finds it. -/
theorem findSlots_of_firstMatch (h : p.Compiled nfa) (hgroups : 1 ≤ p.groupCount)
    (hmatch : p.FirstMatch text start i y) :
    nfa.findSlots text i y.cursor true = some y.slots := by
  obtain ⟨hi, hstop, -⟩ := h.bounds hgroups hmatch.le_size hmatch.isMatch
  have hattempt : (Nfa.attempts i text.size true i).findSome? (p.matchAt? text) = some y := by
    simp [Nfa.attempts, hmatch.isMatch]
  rw [h.findSlots_eq hgroups true hi hstop fun z hz => ?_, hattempt, Option.map_some]
  obtain rfl := Option.some.inj (hattempt.symm.trans hz)
  exact Nat.le_refl _

/-- A simulation up to the end of the leftmost match finds it also from where the search begins. -/
theorem findSlots_of_leftmost? (h : p.Compiled nfa) (hgroups : 1 ≤ p.groupCount)
    (hsticky : p.flags.sticky = false) (hstart : start ≤ text.size)
    (hy : p.leftmost? text start = some y) :
    nfa.findSlots text start y.cursor false = some y.slots := by
  obtain ⟨i, hmatch, -⟩ := exists_of_leftmost? hstart hy
  obtain ⟨hi, hstop, -⟩ := h.bounds hgroups hmatch.le_size hmatch.isMatch
  rw [leftmost?, hsticky] at hy
  rw [h.findSlots_eq hgroups false (Nat.le_trans hmatch.start_le hi) hstop fun z hz => ?_, hy,
    Option.map_some]
  obtain rfl := Option.some.inj (hy.symm.trans hz)
  exact Nat.le_refl _

end Pattern.Compiled

namespace TableMatcher

variable {s : Source} {p : Pattern} {config : Config} {m : TableMatcher} {q : NumberedPattern}
  {text : Text} {start i : Nat} {y : MatchState}

theorem Built.compiled (h : Built p config m q) (hparse : s.parse = .ok p) : p.Compiled m.nfa :=
  Source.compiled_of_build hparse h.number h.nfa

/-- Where the start of the leftmost match is known without the captures, it is the right one. -/
theorem Built.startOf?_eq (h : Built p config m q) (hparse : s.parse = .ok p)
    (hmatch : p.FirstMatch text start i y) (hsticky : p.flags.sticky = true → i = start) :
    m.startOf? text y.cursor start = some i ∨
      m.startOf? text y.cursor start = none ∧ p.flags.sticky = false := by
  obtain ⟨hwf, hgroups⟩ := Source.wellFormed_of_parse hparse
  unfold startOf?
  rw [h.sticky]
  split
  · rename_i htrue
    exact .inl (by rw [hsticky htrue])
  · rename_i hfalse
    have hfalse : p.flags.sticky = false := by simpa using hfalse
    cases hbackward : m.backward with
    | none => exact .inr ⟨rfl, hfalse⟩
    | some dfa =>
      obtain ⟨back, hback, htable⟩ := h.backward dfa hbackward
      obtain ⟨hcompiledBack, href⟩ := Source.compiledBack_of_build hparse h.number hback
      obtain ⟨hi, hstop, -⟩ :=
        (h.compiled hparse).bounds hgroups hmatch.le_size hmatch.isMatch
      exact .inl (hcompiledBack.firstStart?_of_firstMatch htable hwf href hmatch hi hstop)

/-- The captures of the leftmost match follow from its end. -/
theorem Built.capture_eq (h : Built p config m q) (hparse : s.parse = .ok p)
    (hstart : start ≤ text.size) (hy : p.leftmost? text start = some y) :
    m.capture text start y.cursor = ⟨y.slots⟩ := by
  have hgroups := (Source.wellFormed_of_parse hparse).2
  have hcompiled := h.compiled hparse
  obtain ⟨i, hmatch, hsticky⟩ := Pattern.exists_of_leftmost? hstart hy
  unfold capture
  rcases h.startOf?_eq hparse hmatch hsticky with hfirst | ⟨hfirst, hfalse⟩
  · obtain ⟨-, -, hsize, hlo, hhi⟩ := hcompiled.bounds hgroups hmatch.le_size hmatch.isMatch
    simp only [hfirst]
    split
    · rename_i hone
      have hcount : m.nfa.groupCount = 1 := by
        rw [hcompiled.groupCount] at hone ⊢
        omega
      rw [hcount]
      rw [← hcompiled.groupCount, hcount] at hsize
      exact SearchResult.ofBounds_eq hsize hlo hhi
    · simp only [simulate, hcompiled.findSlots_of_firstMatch hgroups hmatch]
  · simp only [hfirst, simulate, hcompiled.findSlots_of_leftmost? hgroups hfalse hstart hy]

/-- Where a matcher knows the start of a match or its captures without a simulation, it knows its
look-arounds. -/
theorem Built.looksFit_or (h : Built p config m q) (hparse : s.parse = .ok p) :
    (m.nfa.lookBehinds.length ≤ 65536 ∧ ∀ atStart, m.nfa.LooksFit atStart m.nfa.start) ∨
      m.paths = none ∧ m.backward = none := by
  cases hpaths : m.paths with
  | some t =>
    have hbuild := h.paths t hpaths
    left
    constructor
    · simp [PathTable.lookBehinds_of_build hbuild]
    · exact PathTable.looksFit_of_build hbuild
  | none =>
    cases hbackward : m.backward with
    | none => exact .inr ⟨rfl, rfl⟩
    | some dfa =>
      obtain ⟨hbehind, hahead⟩ := h.lookless (by simp [hbackward])
      left
      constructor
      · simp [hbehind]
      · exact (h.compiled hparse).looksFit (by simp [hahead])

/-- With nothing but the forward table, the captures come from a simulation up to the end that it
tells. -/
theorem Built.find_eq_of_none (h : Built p config m q) (hpaths : m.paths = none)
    (hbackward : m.backward = none) :
    m.find text start =
      match m.forward.lastEnd? text
        (m.forward.entry (ForwardSubset.entryFor m.nfa.context p.flags.sticky start))
        (start - min start m.nfa.context) with
      | none => .noMatch
      | some stop =>
        if p.flags.sticky = true ∧ m.nfa.groupCount ≤ 1 then
          .ofBounds start stop m.nfa.groupCount
        else m.simulate text start stop p.flags.sticky := by
  unfold find
  simp only [h.sticky, hpaths, Option.bind_none]
  cases m.forward.lastEnd? text
    (m.forward.entry (ForwardSubset.entryFor m.nfa.context p.flags.sticky start))
    (start - min start m.nfa.context) with
  | none => rfl
  | some stop =>
    simp only [capture, startOf?, h.sticky, hbackward, Option.bind_none]
    cases p.flags.sticky <;> simp

/-- A matcher by tables finds the leftmost match, if its bodies of look-arounds can be told apart
where a search comes by them. -/
theorem Built.find_eq_leftmost?_of_looksFit (h : Built p config m q) (hparse : s.parse = .ok p)
    (hbehind : m.nfa.lookBehinds.length ≤ 65536)
    (hlooks : ∀ atStart, m.nfa.LooksFit atStart m.nfa.start) (hstart : start ≤ text.size) :
    m.find text start =
      match p.leftmost? text start with
      | some y => ⟨y.slots⟩
      | none => .noMatch := by
  have hgroups := (Source.wellFormed_of_parse hparse).2
  have hcompiled := h.compiled hparse
  unfold find
  dsimp only
  rw [h.sticky, hcompiled.lastEnd?_eq hbehind hlooks h.forward hstart]
  cases hy : p.leftmost? text start with
  | none => rfl
  | some y =>
    simp only [Option.map_some]
    cases hpaths : m.paths with
    | none => exact h.capture_eq hparse hstart hy
    | some t =>
      obtain ⟨i, hmatch, -⟩ := Pattern.exists_of_leftmost? hstart hy
      obtain ⟨-, hstop, -⟩ := hcompiled.bounds hgroups hmatch.le_size hmatch.isMatch
      simp only [Option.bind_some, PathTable.lookUp?_eq hcompiled (h.paths t hpaths) hmatch hstop]

/-- A matcher by tables finds the leftmost match. -/
theorem Built.find_eq_leftmost? (h : Built p config m q) (hparse : s.parse = .ok p)
    (hbehind : m.nfa.lookBehinds.length ≤ 65536) (hahead : m.nfa.lookAheads.length ≤ 65536)
    (hstart : start ≤ text.size) :
    m.find text start =
      match p.leftmost? text start with
      | some y => ⟨y.slots⟩
      | none => .noMatch :=
  h.find_eq_leftmost?_of_looksFit hparse hbehind ((h.compiled hparse).looksFit hahead) hstart

end TableMatcher

/-- Whenever a pattern has tables, they find what the fallback by backtracking finds. -/
theorem TableMatcher.find_eq_backtracking {s : Source} {p : Pattern} {config : Config}
    {log : List Event} {m : TableMatcher} (hparse : s.parse = .ok p)
    (hbuild : ((TableMatcher.build p config).run.run log).1 = .ok m)
    (hbehind : m.nfa.lookBehinds.length ≤ 65536) (hahead : m.nfa.lookAheads.length ≤ 65536) :
    ∃ search, Fallback.backtracking.compile s = .ok search ∧
      ∀ (text : Text) (start : Nat), start ≤ text.size →
        m.find text start = search text start := by
  obtain ⟨q, hbuilt⟩ := built_of_build hbuild
  refine ⟨p.haltingProgram.find, by simp only [Fallback.backtracking, hparse], ?_⟩
  intro text start hstart
  exact (hbuilt.find_eq_leftmost? hparse hbehind hahead hstart).trans
    (p.find_eq_leftmost? text hstart).symm

/-- Behind the `x` in `yxab` both find `(?<=x)(a|b)*` to match two units. -/
theorem TableMatcher.find_eq_backtracking_behind :
    ∃ p m search, Source.parse ⟨"(?<=x)(a|b)*", {}, {}⟩ = .ok p ∧
      ((TableMatcher.build p {}).run.run []).1 = .ok m ∧ m.nfa.lookBehinds.length ≤ 65536 ∧
      m.nfa.lookAheads.length ≤ 65536 ∧
      Fallback.backtracking.compile ⟨"(?<=x)(a|b)*", {}, {}⟩ = .ok search ∧
      search #[121, 120, 97, 98] 0 = ⟨#[2, 4, 3, 4]⟩ := by
  let text : Text := #[121, 120, 97, 98]
  let p : Pattern :=
    ⟨.one (.cons (.look true false (.one (.cons (.unit (.single 120)) .nil)))
      (.cons (.group (some 1) (some ⟨0, none, true⟩)
        (.more (.cons (.unit (.single 97)) .nil) (.one (.cons (.unit (.single 98)) .nil))))
        .nil)), {}, 2, [], 1⟩
  have hparse : Source.parse ⟨"(?<=x)(a|b)*", {}, {}⟩ = .ok p := by cbv
  have hok : (((TableMatcher.build p {}).run.run []).1.toOption.any fun m =>
      decide (m.nfa.lookBehinds.length ≤ 65536 ∧ m.nfa.lookAheads.length ≤ 65536 ∧
        m.find text 0 = ⟨#[2, 4, 3, 4]⟩)) = true := by cbv
  obtain ⟨m, hbuild, hok⟩ := exists_eq_ok_of_any hok
  obtain ⟨hbehind, hahead, hfind⟩ := of_decide_eq_true hok
  obtain ⟨search, hcompile, hsame⟩ :=
    TableMatcher.find_eq_backtracking hparse hbuild hbehind hahead
  refine ⟨p, m, search, hparse, hbuild, hbehind, hahead, hcompile, ?_⟩
  rw [← hsame text 0 (Nat.zero_le _), hfind]

end UnitRegex
