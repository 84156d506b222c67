import UnitRegex.Automaton.Refusal
import UnitRegex.Source.Literal

/-! What an engine reports while it compiles, as events with a level and a text. -/

namespace UnitRegex

inductive Event where
  | cacheHit (source : Source)
  | cacheMiss (source : Source)
  | evicted (source : Source)
  | forwardTable (states automatonStates : Nat)
  | backwardTable (states : Nat)
  | pathTable (results : Nat)
  | pathTableAbandoned (states : Nat)
  | fallbackForced (source : Source)
  | fallbackUsed (source : Source) (cause : Refusal)
  deriving DecidableEq

inductive Level where
  | trace | debug | warn
  deriving DecidableEq

def Level.name : Level → String
  | trace => "TRACE"
  | debug => "DEBUG"
  | warn => "WARN"

namespace Event

def level : Event → Level
  | cacheHit _ | cacheMiss _ | evicted _ => .trace
  | fallbackUsed _ (.alreadyNumbered _ _) | fallbackUsed _ .notNumbered => .warn
  | _ => .debug

def text : Event → String
  | cacheHit s => "cache hit for " ++ s.display
  | cacheMiss s => "cache miss for " ++ s.display
  | evicted s => "evicted " ++ s.display
  | forwardTable n m =>
    "forward DFA: " ++ toString n ++ " states from " ++ toString m ++ " NFA states"
  | backwardTable n => "backward DFA: " ++ toString n ++ " states"
  | pathTable n => "trace-finder with " ++ toString n ++ " precalculated results"
  | pathTableAbandoned n => "trace-finder DFA abandoned at " ++ toString n ++ " states"
  | fallbackForced s => s.display ++ ": fallback forced by options"
  | fallbackUsed s cause => s.display ++ ": " ++ cause.message ++ ", using the fallback"

def line (e : Event) : String := e.level.name ++ " " ++ e.text

end Event

end UnitRegex
