import UnitRegex.Proofs.Automaton.ArenaBuild
import UnitRegex.Proofs.Automaton.Constructions
import UnitRegex.Proofs.Engine.Serving

/-!
What can go wrong in a compilation. A pattern that cannot be read fails, and no other one: limits
only decide how it is matched. That its arena breaks the order of ids or sentinels never happens, so
the engine never has reason to warn.
-/

namespace UnitRegex

/-- An event that does not warn. -/
def Event.Calm (e : Event) : Prop := e.level ≠ .warn

theorem Refusal.IsLimit.calm {r : Refusal} (h : r.IsLimit) (s : Source) :
    (Event.fallbackUsed s r).Calm := by
  cases r with
  | unsupported c => exact Level.noConfusion
  | tooManyStates o => exact Level.noConfusion
  | alreadyNumbered slot id => exact h.elim
  | notNumbered => exact h.elim

namespace Construction

variable {α β : Type} {m : Construction α} {f : α → Construction β}

/-- A construction reports calm events only, and is refused for a limit if it is refused. -/
def Calm (m : Construction α) : Prop :=
  ∀ log, (∀ e ∈ log, Event.Calm e) →
    (∀ e ∈ (m.run.run log).2, Event.Calm e) ∧ ∀ r, (m.run.run log).1 = .error r → r.IsLimit

theorem calm_pure (a : α) : Calm (pure a : Construction α) := by
  intro log hlog
  refine ⟨hlog, ?_⟩
  intro r hr
  cases hr

theorem Calm.bind (hm : m.Calm) (hf : ∀ a, (f a).Calm) : (m >>= f).Calm := by
  intro log hlog
  obtain ⟨hreported, hlimit⟩ := hm log hlog
  rw [ExceptT.run_bind, StateT.run_bind]
  cases hresult : m.run.run log with
  | mk result after =>
    rw [hresult] at hreported hlimit
    cases result with
    | ok a => exact hf a after hreported
    | error r =>
      refine ⟨hreported, ?_⟩
      intro r' hr'
      obtain rfl : r = r' := Except.error.inj hr'
      exact hlimit r rfl

theorem calm_report {e : Event} (h : e.Calm) : Calm (report e) := by
  intro log hlog
  refine ⟨?_, ?_⟩
  · intro e' he'
    rcases List.mem_append.mp he' with he' | he'
    · exact hlog e' he'
    · obtain rfl := List.mem_singleton.mp he'
      exact h
  · intro r hr
    cases hr

theorem calm_ofExcept {ε : Type} (wrap : ε → Refusal) {result : Except ε α}
    (h : ∀ e, result = .error e → (wrap e).IsLimit) : Calm (ofExcept wrap result) := by
  intro log hlog
  cases result with
  | ok a => exact calm_pure a log hlog
  | error e =>
    refine ⟨hlog, ?_⟩
    intro r hr
    obtain rfl : wrap e = r := Except.error.inj hr
    exact h e rfl

theorem calm_ofExcept_ok_bind {ε : Type} (wrap : ε → Refusal) (a : α) (hf : (f a).Calm) :
    (ofExcept wrap (.ok a) >>= f).Calm := by
  rw [show ofExcept wrap (.ok a) = pure a from rfl, pure_bind]
  exact hf

end Construction

namespace TableMatcher

open Construction

theorem calm_buildPaths (nfa : Nfa) (config : Config) : Calm (buildPaths nfa config) := by
  unfold buildPaths
  split
  · exact (calm_report (by intro h; cases h)).bind fun _ => calm_pure _
  · exact calm_pure _
  · exact (calm_report (by intro h; cases h)).bind fun _ => calm_pure _

theorem calm_buildBackward (p : Pattern) (config : Config) :
    Calm (buildBackward ⟨p, true⟩ config) := by
  apply (calm_ofExcept id fun r hr => Nfa.isLimit_of_build hr).bind
  intro nfa
  apply (calm_ofExcept Refusal.tooManyStates fun _ _ => trivial).bind
  intro dfa
  exact (calm_report (by intro h; cases h)).bind fun _ => calm_pure _

/-- A pattern is refused its tables for a limit only. -/
theorem calm_build (p : Pattern) (config : Config) : Calm (build p config) := by
  unfold build
  apply calm_ofExcept_ok_bind id (⟨p, true⟩ : NumberedPattern)
  apply (calm_ofExcept id fun r hr => Nfa.isLimit_of_build hr).bind
  intro nfa
  apply (calm_ofExcept Refusal.tooManyStates fun _ _ => trivial).bind
  intro forward
  apply (calm_report (by intro h; cases h)).bind
  intro _
  have hbackward : Calm (some <$> buildBackward ⟨p, true⟩ config) := by
    rw [map_eq_pure_bind]
    exact (calm_buildBackward p config).bind fun _ => calm_pure _
  have hrest (paths : Option PathTable) : Calm (do
      let backward ←
        if paths.isNone && nfa.lookBehinds.isEmpty && nfa.lookAheads.isEmpty then
          some <$> buildBackward ⟨p, true⟩ config
        else pure none
      return (⟨nfa, forward, backward, paths, p.flags.sticky⟩ : TableMatcher)) := by
    dsimp only
    split
    · exact hbackward.bind fun _ => calm_pure _
    · exact (calm_pure _).bind fun _ => calm_pure _
  dsimp only
  split
  · exact (calm_buildPaths nfa config).bind hrest
  · exact (calm_pure _).bind hrest

end TableMatcher

/-- Compiling a source from scratch reports calm events only. -/
theorem Source.calm_compile (s : Source) (config : Config) (fallback : Fallback) (serial : Nat) :
    ∀ e ∈ (s.compile config fallback serial).2, Event.Calm e := by
  unfold compile
  split
  · intro e he
    cases he
  · rename_i p hparse
    split
    · intro e he
      obtain rfl := List.mem_singleton.mp he
      intro h
      cases h
    · obtain ⟨hreported, hlimit⟩ := TableMatcher.calm_build p config [] (by intro e he; cases he)
      split
      · rename_i m events hbuild
        rw [hbuild] at hreported
        exact hreported
      · rename_i cause events hbuild
        rw [hbuild] at hreported hlimit
        intro e he
        rcases List.mem_append.mp he with he | he
        · exact hreported e he
        · obtain rfl := List.mem_singleton.mp he
          exact (hlimit cause rfl).calm s

/-- Compiling a source from scratch fails if and only if the source cannot be read. -/
theorem Source.compile_fails_iff (s : Source) (config : Config) (serial : Nat)
    (fault : SyntaxError) :
    (s.compile config .backtracking serial).1 = .error fault ↔ s.parse = .error fault := by
  cases hparse : s.parse with
  | ok p =>
    obtain ⟨r, hr, -⟩ := Source.compile_eq_ok hparse config serial
    rw [hr]
    constructor <;> intro h <;> cases h
  | error e =>
    simp only [compile, hparse]
    constructor <;> intro h <;> obtain rfl := Except.error.inj h <;> rfl

namespace Engine

/-- An engine never has reason to warn. -/
def Calm (e : Engine) : Prop := ∀ event ∈ e.log, Event.Calm event

theorem Calm.compile {e : Engine} (h : e.Calm) (s : Source) : (e.compile s).2.Calm := by
  unfold Engine.compile
  split
  · intro event hevent
    rcases List.mem_append.mp hevent with hevent | hevent
    · exact h event hevent
    · obtain rfl := List.mem_singleton.mp hevent
      intro hlevel
      cases hlevel
  · rename_i cache hfind
    intro event hevent
    rcases List.mem_append.mp hevent with hevent | hevent
    · rcases List.mem_append.mp hevent with hevent | hevent
      · exact h event hevent
      · rcases List.mem_cons.mp hevent with rfl | hevent
        · intro hlevel
          cases hlevel
        · exact s.calm_compile _ _ _ event hevent
    · obtain ⟨evicted, -, rfl⟩ := List.mem_map.mp hevent
      intro hlevel
      cases hlevel

theorem Calm.serve {e : Engine} (h : e.Calm) (request : Request) : (e.serve request).2.Calm := by
  cases request with
  | compile s => exact h.compile s
  | literal text =>
    simp only [Engine.serve, compileLiteral]
    split
    · exact h
    · exact h.compile _
  | check s => exact h
  | find r text start => exact h

theorem Calm.serveAll {e : Engine} (h : e.Calm) (requests : List Request) :
    (e.serveAll requests).2.Calm := by
  induction requests generalizing e with
  | nil => exact h
  | cons request rest ih => exact ih (h.serve request)

/-- Whatever an engine did before and whatever its limits are, it compiles exactly the sources that
can be read, and the check of a source agrees. The arena of a pattern gets ids for all its nodes, the
automata follow from it as they do from the tree, and the tables are refused for a limit only. -/
theorem compile_eq_error_iff (config : Config) (requests : List Request) (s : Source) :
    let e := ((ofConfig config).serveAll requests).2
    (∀ fault, (e.compile s).1 = .error fault ↔ s.parse = .error fault) ∧
      (∀ fault, s.check = .error fault ↔ (e.compile s).1 = .error fault) ∧
      (∀ event ∈ (e.compile s).2.log, event.level ≠ .warn) ∧
      ∀ p, s.parse = .ok p → ∀ limits,
        (∃ n, p.arena.number p.arena.unnumbered = .ok n ∧
          (∀ slot < p.arena.shapes.length,
            ∃ id, n.id? slot = some id ∧ n.slot? id = some slot) ∧
          ∀ direction, p.arena.build n limits direction =
            .ok (Nfa.build ⟨p, true⟩ limits direction)) ∧
        ∀ refusal, ((TableMatcher.build p limits).run.run []).1 = .error refusal →
          refusal.IsLimit := by
  intro e
  obtain ⟨-, hknows⟩ := (knows_ofFallback config .backtracking).serveAll requests
  obtain ⟨serial, hcomes⟩ := (hknows.faithful.compile s).1
  have hcompile (fault : SyntaxError) :
      (e.compile s).1 = .error fault ↔ s.parse = .error fault := by
    rw [← s.compile_fails_iff config serial fault, hcomes]
    rfl
  have hcalm : (ofConfig config).Calm := by
    intro event hevent
    cases hevent
  refine ⟨hcompile, ?_, (hcalm.serveAll requests).compile s, ?_⟩
  · intro fault
    rw [hcompile, Source.check]
    cases s.parse with
    | ok p => constructor <;> intro h <;> cases h
    | error e => constructor <;> intro h <;> cases h <;> rfl
  · intro p hparse limits
    obtain ⟨n, hnumber, hids, hindex⟩ := p.number_arena
    refine ⟨⟨n, hnumber, ?_, ?_⟩, ?_⟩
    · intro slot hslot
      obtain ⟨id, hid⟩ := p.exists_id hids hslot
      exact ⟨id, hid, hindex slot id hid⟩
    · intro direction
      obtain ⟨id, hid⟩ := p.exists_id hids p.shapes_pos
      apply p.build_arena hids
      intro hempty
      have hslot := hindex 0 id hid
      rw [Numbering.slot?, hempty] at hslot
      cases hslot
    · exact (TableMatcher.calm_build p limits [] (by intro e he; cases he)).2

end Engine

end UnitRegex
