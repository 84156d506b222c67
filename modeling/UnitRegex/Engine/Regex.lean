import UnitRegex.Backtrack.Search
import UnitRegex.Engine.TableMatcher
import UnitRegex.Pattern.Reader
import UnitRegex.Source.Quoted

/-! Compiled patterns, and the fallbacks for patterns that the tables do not support. -/

namespace UnitRegex

/-- A search for the leftmost match from a position of a text on. -/
abbrev Search := Text → Nat → SearchResult

/-- Compiles the patterns that have no tables. -/
structure Fallback where
  compile : Source → Except SyntaxError Search

def Fallback.backtracking : Fallback where
  compile source :=
    match source.parse with
    | .error e => .error e
    | .ok p =>
      let program := p.haltingProgram
      .ok program.find

inductive Strategy where
  | tables (m : TableMatcher)
  | fallback (search : Search)

structure Regex where
  source : Source
  /-- Number of capture groups, the whole match included. -/
  groupCount : Nat
  strategy : Strategy
  /-- The compilation that made it, counted within its engine. -/
  serial : Nat

namespace Regex

/-- The leftmost match from a position on. Behind the end of the text there is none. -/
def find (r : Regex) (text : Text) (start : Nat) : SearchResult :=
  if text.size < start then .noMatch
  else
    match r.strategy with
    | .tables m => m.find text start
    | .fallback search => search text start

/-- The successive matches from a position on. Behind an empty match one position is skipped. -/
def matchesFrom (r : Regex) (text : Text) (start : Nat) : List SearchResult :=
  if text.size < start then []
  else
    let result := r.find text start
    match result.group? 0 with
    | none => []
    | some (lo, hi) =>
      -- A match never ends in front of its start, so the search always moves on.
      result :: r.matchesFrom text (max (start + 1) (if lo < hi then hi else hi + 1))
termination_by text.size + 1 - start

def isFallback (r : Regex) : Bool :=
  match r.strategy with
  | .tables _ => false
  | .fallback _ => true

def usesPathTable (r : Regex) : Bool :=
  match r.strategy with
  | .tables m => m.paths.isSome
  | .fallback _ => false

def display (r : Regex) : String :=
  "CompiledRegex \x7b source: " ++ quoted r.source.display ++
    ", group_count: " ++ toString r.groupCount ++
    ", used_fallback: " ++ toString r.isFallback ++ " \x7d"

end Regex

end UnitRegex
