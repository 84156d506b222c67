import UnitRegex.Engine.Cache

/-!
Compilation of sources. An engine prefers tables, hands what they do not support to its fallback,
and keeps what came of a source. The only errors are those of syntax and of the fallback.
-/

namespace UnitRegex

/-- Has a source of a known number of groups compiled by a fallback. -/
def Fallback.outcome (f : Fallback) (s : Source) (groupCount serial : Nat) : Outcome :=
  (f.compile s).map fun search => ⟨s, groupCount, .fallback search, serial⟩

/-- The syntax error of a source, if it has one, without compiling it. -/
def Source.check (s : Source) : Except SyntaxError Unit := s.parse.map fun _ => ()

/-- Compiles a source from scratch, and tells what happened on the way. -/
def Source.compile (s : Source) (config : Config) (fallback : Fallback) (serial : Nat) :
    Outcome × List Event :=
  match s.parse with
  | .error e => (.error e, [])
  | .ok p =>
    if s.options.forceFallback then
      (fallback.outcome s p.groupCount serial, [.fallbackForced s])
    else
      match (TableMatcher.build p config).run.run [] with
      | (.ok m, events) => (.ok ⟨s, p.groupCount, .tables m, serial⟩, events)
      | (.error cause, events) =>
        (fallback.outcome s p.groupCount serial, events ++ [.fallbackUsed s cause])

structure Engine where
  config : Config
  fallback : Fallback
  cache : Cache
  /-- All events so far, in order. -/
  log : List Event := []

namespace Engine

def ofFallback (config : Config) (fallback : Fallback) : Engine where
  config := config
  fallback := fallback
  cache := { capacity := config.cacheCapacity }

def ofConfig (config : Config) : Engine := ofFallback config .backtracking

/-- Compiles a source unless the outcome is known. -/
def compile (e : Engine) (s : Source) : Outcome × Engine :=
  match e.cache.find? s with
  | (some outcome, cache) =>
    (outcome, { e with cache := cache, log := e.log ++ [.cacheHit s] })
  | (none, cache) =>
    let cache := cache.countCompilation
    let (outcome, events) := s.compile e.config e.fallback cache.stats.compilations
    let (cache, evicted) := cache.insert s outcome
    let log := e.log ++ .cacheMiss s :: events ++ evicted.map .evicted
    (outcome, { e with cache := cache, log := log })

def compileLiteral (e : Engine) (literal : String) : Outcome × Engine :=
  match Source.ofLiteral literal with
  | .error error => (.error error, e)
  | .ok s => e.compile s

def stats (e : Engine) : CacheCounts := e.cache.stats

end Engine

end UnitRegex
