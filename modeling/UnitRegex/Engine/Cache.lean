import UnitRegex.Engine.Regex

/-!
A bounded cache of compilations, failed ones included. The entry that was not used for the longest
time gives way first.
-/

namespace UnitRegex

/-- What came of a source. -/
abbrev Outcome := Except SyntaxError Regex

structure CacheCounts where
  hits : Nat := 0
  misses : Nat := 0
  compilations : Nat := 0
  evictions : Nat := 0
  deriving DecidableEq

/-- Different sources with what came of them, the one used last at the end. -/
abbrev CacheEntries := List (Source × Outcome)

namespace CacheEntries

/-- The position of the entry of a source. -/
def indexOf? (entries : CacheEntries) (s : Source) : Option Nat := entries.findIdx? (·.1 = s)

/-- Moves an entry to another position. Those in between close the gap. -/
def move (entries : CacheEntries) (i j : Nat) : CacheEntries :=
  match entries[i]? with
  | some entry => (entries.eraseIdx i).insertIdx j entry
  | none => entries

/-- Stores an outcome in the entry that its source has, or else in a new one at the end, and tells
where it is. -/
def put (entries : CacheEntries) (s : Source) (o : Outcome) : Nat × CacheEntries :=
  match entries.indexOf? s with
  | some i => (i, entries.set i (s, o))
  | none => (entries.length, entries ++ [(s, o)])

/-- Takes entries from the front until `capacity` are left, and tells which sources these were. -/
def trim (capacity : Nat) : CacheEntries → CacheEntries × List Source
  | [] => ([], [])
  | entry :: rest =>
    if rest.length < capacity then (entry :: rest, [])
    else
      let (kept, evicted) := trim capacity rest
      (kept, entry.1 :: evicted)

end CacheEntries

structure Cache where
  capacity : Nat
  entries : CacheEntries := []
  stats : CacheCounts := {}

namespace Cache

def size (c : Cache) : Nat := c.entries.length

def contains (c : Cache) (s : Source) : Bool := c.entries.any (·.1 = s)

/-- Looks a source up, which is a use of its entry. -/
def find? (c : Cache) (s : Source) : Option Outcome × Cache :=
  match c.entries.indexOf? s with
  | some i =>
    let last := c.entries.length - 1
    let entries := c.entries.move i last
    (entries[last]?.map (·.2),
      { c with entries := entries, stats := { c.stats with hits := c.stats.hits + 1 } })
  | none => (none, { c with stats := { c.stats with misses := c.stats.misses + 1 } })

/-- Stores an outcome as the one used last, and tells which sources had to go. -/
def insert (c : Cache) (s : Source) (o : Outcome) : Cache × List Source :=
  if c.capacity = 0 then (c, [])
  else
    let (i, entries) := c.entries.put s o
    let (entries, evicted) := (entries.move i (entries.length - 1)).trim c.capacity
    ({ c with
        entries := entries
        stats := { c.stats with evictions := c.stats.evictions + evicted.length } },
      evicted)

def countCompilation (c : Cache) : Cache :=
  { c with stats := { c.stats with compilations := c.stats.compilations + 1 } }

end Cache

end UnitRegex
