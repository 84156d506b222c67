import UnitRegex.Engine.Requests
import UnitRegex.Proofs.Engine.Recency

/-!
An engine that serves requests of any kinds in any order. Its cache does not show in the answers:
each compilation gives what it gives without a cache. What the cache does show, its entries and its
counts, follows from the row of the sources that were compiled.
-/

namespace UnitRegex

namespace Engine

/-- An answer that an engine without a cache gives as well. -/
def AnsweredBy (config : Config) (fallback : Fallback) : Request → Answer → Prop
  | .compile s, .outcome o => Outcome.ComesOf config fallback s o
  | .literal text, .outcome o =>
    match Source.ofLiteral text with
    | .error fault => o = .error fault
    | .ok s => Outcome.ComesOf config fallback s o
  | .check s, .checked c => c = s.parse.map fun _ => ()
  | .find r text start, .result found => found = r.find text start
  | _, _ => False

/-- Fewer than `n` different other sources were used since the last use of a source. -/
def UsedWithin (n : Nat) (s : Source) (used : List Source) : Prop :=
  ∃ before since, used = before ++ s :: since ∧ s ∉ since ∧ since.dedup.length < n

/-- What an engine knows after sources were compiled in a row. -/
structure Knows (config : Config) (fallback : Fallback) (used : List Source) (e : Engine) : Prop where
  faithful : e.Faithful config fallback
  follows : e.cache.Follows used

variable {config : Config} {fallback : Fallback} {used : List Source} {e : Engine}

theorem knows_ofFallback (config : Config) (fallback : Fallback) :
    (ofFallback config fallback).Knows config fallback [] := by
  have hsources : [] = lastDistinct config.cacheCapacity ([] : List Source) := by
    simp [lastDistinct]
  refine ⟨faithful_ofFallback config fallback, hsources, rfl, rfl, ?_⟩
  split
  · exact ⟨rfl, rfl⟩
  · rfl

theorem Knows.compile (h : e.Knows config fallback used) (s : Source) :
    (e.compile s).2.Knows config fallback (used ++ [s]) := by
  refine ⟨(h.faithful.compile s).2, ?_⟩
  by_cases hs : s ∈ e.cache.entries.sources
  · exact (follows_compile_of_mem h.follows hs).1
  · exact (follows_compile_of_notMem h.follows hs).1

/-- A compilation hits if its source has an entry, and that depends on what was used since. -/
theorem Knows.hits_compile_iff (h : e.Knows config fallback used) (s : Source) :
    (e.compile s).2.stats.hits = e.stats.hits + 1 ↔ UsedWithin config.cacheCapacity s used := by
  have hmem : s ∈ e.cache.entries.sources ↔ UsedWithin config.cacheCapacity s used := by
    rw [h.follows.sources_eq, h.faithful.capacity_eq]
    exact mem_lastDistinct_iff
  rw [← hmem]
  constructor
  · intro hhits
    by_contra hs
    rw [(follows_compile_of_notMem h.follows hs).2] at hhits
    omega
  · exact fun hs => (follows_compile_of_mem h.follows hs).2

/-- One request is answered rightly, and it only uses the source that it has compiled. -/
theorem Knows.serve (h : e.Knows config fallback used) (request : Request) :
    AnsweredBy config fallback request (e.serve request).1 ∧
      (e.serve request).2.Knows config fallback (used ++ request.source?.toList) := by
  have hnone : e.Knows config fallback (used ++ []) := by rwa [List.append_nil]
  cases request with
  | compile s => exact ⟨(h.faithful.compile s).1, h.compile s⟩
  | literal text =>
    cases hliteral : Source.ofLiteral text with
    | error fault =>
      simp only [AnsweredBy, Engine.serve, compileLiteral, Request.source?, hliteral]
      exact ⟨trivial, hnone⟩
    | ok s =>
      simp only [AnsweredBy, Engine.serve, compileLiteral, Request.source?, hliteral]
      exact ⟨(h.faithful.compile s).1, h.compile s⟩
  | check s => exact ⟨rfl, hnone⟩
  | find r text start => exact ⟨rfl, hnone⟩

/-- All requests are answered rightly. Together they use the sources that they have compiled, in
their order. -/
theorem Knows.serveAll (requests : List Request) (h : e.Knows config fallback used) :
    List.Forall₂ (AnsweredBy config fallback) requests (e.serveAll requests).1 ∧
      (e.serveAll requests).2.Knows config fallback
        (used ++ requests.filterMap Request.source?) := by
  induction requests generalizing e used with
  | nil =>
    rw [List.filterMap_nil, List.append_nil]
    exact ⟨.nil, h⟩
  | cons request rest ih =>
    obtain ⟨hanswer, hserved⟩ := h.serve request
    obtain ⟨hanswers, hrest⟩ := ih hserved
    refine ⟨.cons hanswer hanswers, ?_⟩
    have hused : used ++ (request :: rest).filterMap Request.source? =
        used ++ request.source?.toList ++ rest.filterMap Request.source? := by
      cases hsource : request.source? <;> simp [hsource]
    rw [hused]
    exact hrest

/-- However an engine is used, its cache does not change what compilations give. The cache holds the
outcomes of the sources that were compiled last, as many different ones as it has room for, in the
order of their last uses. Only a compilation of one of these is a hit, all others start from
scratch, and no outcome gets lost without being counted. -/
theorem serveAll_leastRecentlyUsed (config : Config) (fallback : Fallback)
    (requests : List Request) :
    let served := (ofFallback config fallback).serveAll requests
    let used := requests.filterMap Request.source?
    let e := served.2
    List.Forall₂ (AnsweredBy config fallback) requests served.1 ∧
      e.cache.entries.sources = lastDistinct config.cacheCapacity used ∧
      (∀ s o, (s, o) ∈ e.cache.entries → Outcome.ComesOf config fallback s o) ∧
      (∀ s, (e.compile s).2.stats.hits = e.stats.hits + 1 ↔
        UsedWithin config.cacheCapacity s used) ∧
      e.stats.hits + e.stats.misses = used.length ∧
      e.stats.compilations = e.stats.misses ∧
      if config.cacheCapacity = 0 then e.stats.hits = 0 ∧ e.stats.evictions = 0
      else e.stats.misses = e.stats.evictions + e.cache.size := by
  intro served used e
  obtain ⟨hanswers, hknows⟩ := (knows_ofFallback config fallback).serveAll requests
  have hcapacity : e.cache.capacity = config.cacheCapacity := hknows.faithful.capacity_eq
  rw [List.nil_append] at hknows
  refine ⟨hanswers, ?_, hknows.faithful.cache, hknows.hits_compile_iff, hknows.follows.uses,
    hknows.follows.compilations, ?_⟩
  · rw [← hcapacity]
    exact hknows.follows.sources_eq
  · rw [← hcapacity]
    exact hknows.follows.balance

end Engine

end UnitRegex
