import UnitRegex.Engine.Config
import UnitRegex.Paths.Accepting
import UnitRegex.Paths.Offsets
import UnitRegex.Table.Subset

/-!
Capture groups by table look-up. The accepting paths of a pattern, read backwards in lockstep, form
a deterministic automaton whose states tell which paths are complete; the smallest complete path
gives the groups.
-/

namespace UnitRegex

/-- The paths that are still possible, each with the number of sets read from its end. -/
abbrev PathSubset := List (UInt8 × UInt16)

namespace PathSubset

def path? (paths : Array Path) (entry : UInt8 × UInt16) : Option Path := paths[entry.1.toNat]?

/-- The set that an entry reads next. -/
def set? (paths : Array Path) (entry : UInt8 × UInt16) : Option CharSet :=
  (path? paths entry).bind fun p => p.sets[entry.2.toNat]?

/-- The path of an entry that has been read to its start. -/
def complete? (paths : Array Path) (entry : UInt8 × UInt16) : Option Path :=
  (path? paths entry).filter fun p => p.length = entry.2.toNat

def initial (paths : Array Path) : PathSubset :=
  (List.range paths.size).map fun i => (UInt8.ofNat i, 0)

def after (paths : Array Path) (key : PathSubset) (u : CodeUnit) : PathSubset :=
  (key.filter fun e => (set? paths e).any (·.contains u)).map fun e => (e.1, e.2 + 1)

def acceptance (paths : Array Path) (key : PathSubset) : Acceptance :=
  let complete := key.filterMap (complete? paths)
  { anywhere := complete.any (!·.anchored), atEdge := complete.any (·.anchored) }

def resultIds (paths : Array Path) (key : PathSubset) : ResultIds :=
  key.foldl (fun ids e =>
    match complete? paths e with
    | some p => ids.add e.1 p.anchored
    | none => ids) {}

def powerset (paths : Array Path) : Powerset PathSubset :=
  { nextSets := fun key => key.filterMap (set? paths)
    after := after paths
    dead := List.isEmpty
    acceptance := acceptance paths
    resultIds := resultIds paths }

end PathSubset

structure PathTable where
  /-- What each path leaves, by its id. -/
  results : Array Offsets
  /-- Tells the paths apart, where there is more than one. -/
  dfa : Option Dfa

namespace PathTable

def offsetsOf (groupCount : Nat) (p : Path) : Offsets :=
  (Offsets.unset groupCount).update p.slots p.length

/-- The table of a pattern, or `none` for a pattern that has none. -/
def build (nfa : Nfa) (config : Config) : Except Overflow (Option PathTable) :=
  match nfa.allPaths? config.pathLimit with
  | none | some [] => .ok none
  | some [only] => .ok (some ⟨#[offsetsOf nfa.groupCount only], none⟩)
  | some paths =>
    let results := (paths.map (offsetsOf nfa.groupCount)).toArray
    let paths := paths.toArray
    match (PathSubset.powerset paths).tabulate [PathSubset.initial paths] config.tableLimit with
    | .ok dfa => .ok (some ⟨results, some dfa⟩)
    | .error overflow => .error overflow

/-- The groups of the match that ends at `stop`, the leftmost one with a start from `floor` on. -/
def lookUp? (t : PathTable) (text : Text) (stop floor : Nat) : Option SearchResult :=
  match t.dfa with
  | none =>
    (t.results[0]?.filter (·.length ≤ stop)).map fun o => o.fromStart (stop - o.length)
  | some dfa =>
    (dfa.firstResult? text (dfa.entry 0) stop floor).bind fun found =>
      t.results[found.2.toNat]?.map (·.fromEnd stop)

end PathTable

end UnitRegex
