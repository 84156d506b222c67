import UnitRegex.Engine.Basic
import UnitRegex.Proofs.Engine.CacheUse

/-!
What an engine hands out. Whatever it compiled before, a regex that it gives for a source was made
from that source: the cache only holds outcomes of compilations with the engine's own configuration.
-/

namespace UnitRegex

/-- The engines that come of a new one with the fallback by backtracking. -/
inductive Engine.Reachable (config : Config) : Engine → Prop
  | new : Reachable config (.ofConfig config)
  | compile {e : Engine} (h : Reachable config e) (s : Source) : Reachable config (e.compile s).2
  | literal {e : Engine} (h : Reachable config e) (literal : String) :
    Reachable config (e.compileLiteral literal).2

/-- An outcome comes of compiling a source from scratch. -/
def Outcome.ComesOf (config : Config) (fallback : Fallback) (s : Source) (o : Outcome) : Prop :=
  ∃ serial, (s.compile config fallback serial).1 = o

/-- A cache remembers only what came of its sources. -/
def Cache.Faithful (config : Config) (fallback : Fallback) (c : Cache) : Prop :=
  ∀ s o, (s, o) ∈ c.entries → Outcome.ComesOf config fallback s o

theorem Cache.Faithful.insert {config : Config} {fallback : Fallback} {c : Cache} {s : Source}
    {o : Outcome} (h : c.Faithful config fallback) (hs : s ∉ c.entries.sources)
    (ho : Outcome.ComesOf config fallback s o) : (c.insert s o).1.Faithful config fallback := by
  by_cases hcapacity : c.capacity = 0
  · rw [Cache.insert_of_capacity_eq_zero hcapacity]
    exact h
  · rw [Cache.insert_of_notMem hcapacity hs]
    intro s' o' hmem
    rcases List.mem_append.mp (List.mem_of_mem_drop hmem) with hmem | hmem
    · exact h s' o' hmem
    · obtain ⟨rfl, rfl⟩ := Prod.mk.inj (List.mem_singleton.mp hmem)
      exact ho

namespace Engine

open CacheEntries

section Compile

variable {e : Engine} {s : Source}

/-- A compilation whose outcome is known hands it out, and only uses its entry. -/
theorem compile_of_first {front back : CacheEntries} {o : Outcome}
    (h : e.cache.entries = front ++ (s, o) :: back) (hs : s ∉ front.sources) :
    e.compile s = (o,
      { e with
        cache :=
          { e.cache with
            entries := front ++ back ++ [(s, o)]
            stats := { e.cache.stats with hits := e.cache.stats.hits + 1 } }
        log := e.log ++ [.cacheHit s] }) := by
  simp only [compile, Cache.find?_of_first h hs]

/-- The cache after a miss, before the outcome is stored. -/
def cacheAfterMiss (e : Engine) : Cache :=
  { e.cache with
    stats := { e.cache.stats with
      misses := e.cache.stats.misses + 1
      compilations := e.cache.stats.compilations + 1 } }

/-- A compilation whose outcome is not known starts from scratch. -/
theorem compile_of_notMem (h : s ∉ e.cache.entries.sources) :
    (e.compile s).1 = (s.compile e.config e.fallback (e.cache.stats.compilations + 1)).1 ∧
      (e.compile s).2.config = e.config ∧ (e.compile s).2.fallback = e.fallback ∧
      (e.compile s).2.cache = (e.cacheAfterMiss.insert s (e.compile s).1).1 := by
  simp only [compile, Cache.find?_of_notMem h]
  exact ⟨rfl, trivial, trivial, rfl⟩

end Compile

/-- An engine with a configuration, a fallback and a faithful cache. -/
structure Faithful (config : Config) (fallback : Fallback) (e : Engine) : Prop where
  config_eq : e.config = config
  fallback_eq : e.fallback = fallback
  capacity_eq : e.cache.capacity = config.cacheCapacity
  cache : e.cache.Faithful config fallback

variable {config : Config} {fallback : Fallback} {e : Engine}

theorem faithful_ofFallback (config : Config) (fallback : Fallback) :
    (ofFallback config fallback).Faithful config fallback := by
  have hcache : (ofFallback config fallback).cache.Faithful config fallback := by
    intro s o hmem
    cases hmem
  exact ⟨rfl, rfl, rfl, hcache⟩

/-- A compilation gives what comes of its source and leaves a faithful engine. -/
theorem Faithful.compile (h : e.Faithful config fallback) (s : Source) :
    Outcome.ComesOf config fallback s (e.compile s).1 ∧
      (e.compile s).2.Faithful config fallback := by
  by_cases hs : s ∈ e.cache.entries.sources
  · obtain ⟨front, o, back, hentries, hfirst⟩ := exists_first_entry hs
    have ho : Outcome.ComesOf config fallback s o := h.cache s o (by simp [hentries])
    rw [compile_of_first hentries hfirst]
    refine ⟨ho, h.config_eq, h.fallback_eq, h.capacity_eq, ?_⟩
    have hperm : (front ++ back ++ [(s, o)]).Perm (front ++ (s, o) :: back) :=
      (List.perm_append_singleton _ _).trans List.perm_middle.symm
    intro s' o' hmem
    apply h.cache s' o'
    rw [hentries]
    exact hperm.mem_iff.mp hmem
  · obtain ⟨hout, hconfig, hfallback, hcache⟩ := compile_of_notMem hs
    have ho : Outcome.ComesOf config fallback s (e.compile s).1 := by
      rw [hout, h.config_eq, h.fallback_eq]
      exact ⟨_, rfl⟩
    have hstored : e.cacheAfterMiss.Faithful config fallback := h.cache
    refine ⟨ho, hconfig.trans h.config_eq, hfallback.trans h.fallback_eq, ?_, ?_⟩
    · rw [hcache, Cache.capacity_insert]
      exact h.capacity_eq
    · rw [hcache]
      exact hstored.insert hs ho

theorem Reachable.faithful (h : Reachable config e) : e.Faithful config .backtracking := by
  induction h with
  | new => exact faithful_ofFallback config .backtracking
  | compile _ s ih => exact (ih.compile s).2
  | literal _ literal ih =>
    unfold compileLiteral
    split
    · exact ih
    · exact (ih.compile _).2

end Engine

/-- A regex was made from a pattern: by its tables, or else by backtracking. -/
structure Regex.MadeFrom (r : Regex) (config : Config) (p : Pattern) : Prop where
  parse : r.source.parse = .ok p
  groupCount : r.groupCount = p.groupCount
  strategy : r.strategy = .fallback p.haltingProgram.find ∨
    ∃ m, r.strategy = .tables m ∧ ((TableMatcher.build p config).run.run []).1 = .ok m

theorem Fallback.outcome_backtracking {s : Source} {p : Pattern} (hparse : s.parse = .ok p)
    (serial : Nat) : Fallback.backtracking.outcome s p.groupCount serial =
      .ok ⟨s, p.groupCount, .fallback p.haltingProgram.find, serial⟩ := by
  simp only [outcome, backtracking, hparse]
  rfl

/-- Compiling a source from scratch fails only if it cannot be read. -/
theorem Source.compile_eq_ok {s : Source} {p : Pattern} (hparse : s.parse = .ok p)
    (config : Config) (serial : Nat) :
    ∃ r, (s.compile config .backtracking serial).1 = .ok r ∧ r.source = s ∧ r.MadeFrom config p := by
  have hfallback := Fallback.outcome_backtracking hparse serial
  simp only [compile, hparse]
  split
  · exact ⟨_, hfallback, rfl, hparse, rfl, .inl rfl⟩
  · split
    · rename_i m events hbuild
      refine ⟨_, rfl, rfl, hparse, rfl, .inr ⟨m, rfl, ?_⟩⟩
      rw [hbuild]
    · exact ⟨_, hfallback, rfl, hparse, rfl, .inl rfl⟩

namespace Engine.Reachable

variable {config : Config} {e : Engine} {s : Source}

/-- An engine compiles every source that can be read, and makes the regex from its pattern. -/
theorem compile_of_parse (h : Reachable config e) {p : Pattern} (hparse : s.parse = .ok p) :
    ∃ r, (e.compile s).1 = .ok r ∧ r.source = s ∧ r.MadeFrom config p := by
  obtain ⟨serial, hcomes⟩ := (h.faithful.compile s).1
  rw [← hcomes]
  exact Source.compile_eq_ok hparse config serial

/-- What an engine compiles can be read. -/
theorem exists_madeFrom (h : Reachable config e) {r : Regex} (hr : (e.compile s).1 = .ok r) :
    ∃ p, r.source = s ∧ r.MadeFrom config p := by
  cases hparse : s.parse with
  | ok p =>
    obtain ⟨r', hr', hmade⟩ := h.compile_of_parse hparse
    obtain rfl := Except.ok.inj (hr'.symm.trans hr)
    exact ⟨p, hmade⟩
  | error fault =>
    obtain ⟨serial, hcomes⟩ := (h.faithful.compile s).1
    rw [hr] at hcomes
    simp only [Source.compile, hparse] at hcomes
    cases hcomes

end Engine.Reachable

end UnitRegex
