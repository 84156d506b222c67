import UnitRegex.Engine.Cache

/-!
The entries of a cache when a source is used. Looking up or storing a source takes its entry out of
the row and puts it at the end, and what does not fit any more is dropped from the front.
-/

namespace UnitRegex

namespace CacheEntries

variable {entries front back : CacheEntries} {s : Source} {o : Outcome}

/-- The sources that have an entry, the one used last at the end. -/
def sources (entries : CacheEntries) : List Source := entries.map (·.1)

@[simp]
theorem sources_append (front back : CacheEntries) :
    sources (front ++ back) = front.sources ++ back.sources := List.map_append

@[simp]
theorem sources_cons (entry : Source × Outcome) (back : CacheEntries) :
    sources (entry :: back) = entry.1 :: back.sources := rfl

@[simp]
theorem sources_nil : sources [] = [] := rfl

@[simp]
theorem length_sources (entries : CacheEntries) : entries.sources.length = entries.length :=
  List.length_map _

/-- A source that has an entry has a first one. -/
theorem exists_first_entry (h : s ∈ entries.sources) :
    ∃ front o back, entries = front ++ (s, o) :: back ∧ s ∉ sources front := by
  obtain ⟨front', back', heq, hfirst⟩ := List.eq_append_cons_of_mem h
  obtain ⟨front, rest, rfl, rfl, hrest⟩ := List.map_eq_append_iff.mp heq
  obtain ⟨⟨s', o⟩, back, rfl, rfl, -⟩ := List.map_eq_cons_iff.mp hrest
  exact ⟨front, o, back, rfl, hfirst⟩

theorem indexOf?_of_first (h : s ∉ front.sources) :
    indexOf? (front ++ (s, o) :: back) s = some front.length := by
  have hfront : ∀ entry ∈ front, entry.1 ≠ s := by
    intro entry hentry heq
    exact h (List.mem_map.mpr ⟨entry, hentry, heq⟩)
  have hnone : front.findIdx? (·.1 = s) = none := by
    rw [List.findIdx?_eq_none_iff]
    intro entry hentry
    simpa using hfront entry hentry
  simp [indexOf?, List.findIdx?_append, hnone, List.findIdx?_cons]

theorem indexOf?_of_notMem (h : s ∉ entries.sources) : entries.indexOf? s = none := by
  rw [indexOf?, List.findIdx?_eq_none_iff]
  intro entry hentry
  have hne : entry.1 ≠ s := fun heq => h (List.mem_map.mpr ⟨entry, hentry, heq⟩)
  simpa using hne

/-- An entry that is moved to the end leaves the others in their order. -/
theorem move_last (front back : CacheEntries) (entry : Source × Outcome) :
    move (front ++ entry :: back) front.length ((front ++ entry :: back).length - 1) =
      front ++ back ++ [entry] := by
  have hget : (front ++ entry :: back)[front.length]? = some entry := by simp
  have herase : (front ++ entry :: back).eraseIdx front.length = front ++ back := by
    simp [List.eraseIdx_append_of_length_le]
  have hlength : (front ++ entry :: back).length - 1 = (front ++ back).length := by simp
  rw [move, hget, herase, hlength]
  exact List.insertIdx_length_self

theorem put_of_notMem (h : s ∉ entries.sources) :
    entries.put s o = (entries.length, entries ++ [(s, o)]) := by
  rw [put, indexOf?_of_notMem h]

/-- What is over the capacity goes from the front. -/
theorem trim_eq (capacity : Nat) (entries : CacheEntries) :
    entries.trim capacity =
      (entries.drop (entries.length - capacity),
        sources (entries.take (entries.length - capacity))) := by
  induction entries with
  | nil => simp [trim]
  | cons entry rest ih =>
    rw [trim]
    split
    · rename_i hfits
      have hzero : (entry :: rest).length - capacity = 0 := by
        rw [List.length_cons]
        omega
      rw [hzero]
      rfl
    · rename_i hover
      have hsucc : (entry :: rest).length - capacity = rest.length - capacity + 1 := by
        rw [List.length_cons]
        omega
      rw [ih, hsucc]
      rfl

end CacheEntries

namespace Cache

open CacheEntries

variable {c : Cache} {s : Source} {o : Outcome} {front back : CacheEntries}

/-- A source with an entry is found, and its entry becomes the last one. -/
theorem find?_of_first (h : c.entries = front ++ (s, o) :: back) (hs : s ∉ front.sources) :
    c.find? s = (some o,
      { c with
        entries := front ++ back ++ [(s, o)]
        stats := { c.stats with hits := c.stats.hits + 1 } }) := by
  have hlast : (front ++ back ++ [(s, o)])[(front ++ (s, o) :: back).length - 1]? = some (s, o) := by
    simp
  simp only [find?, h, indexOf?_of_first hs, move_last, hlast, Option.map_some]

theorem find?_of_notMem (h : s ∉ c.entries.sources) :
    c.find? s = (none, { c with stats := { c.stats with misses := c.stats.misses + 1 } }) := by
  simp only [find?, indexOf?_of_notMem h]

@[simp]
theorem capacity_insert (c : Cache) (s : Source) (o : Outcome) :
    (c.insert s o).1.capacity = c.capacity := by
  unfold insert
  split <;> rfl

theorem insert_of_capacity_eq_zero (h : c.capacity = 0) (s : Source) (o : Outcome) :
    c.insert s o = (c, []) := by
  rw [insert, if_pos h]

/-- A source without an entry gets the last one. -/
theorem insert_of_notMem (hcapacity : c.capacity ≠ 0) (h : s ∉ c.entries.sources) (o : Outcome) :
    c.insert s o =
      ({ c with
          entries := (c.entries ++ [(s, o)]).drop (c.entries.length + 1 - c.capacity)
          stats := { c.stats with
            evictions := c.stats.evictions + (c.entries.length + 1 - c.capacity) } },
        sources (c.entries.take (c.entries.length + 1 - c.capacity))) := by
  have hmove : move (c.entries ++ [(s, o)]) c.entries.length ((c.entries ++ [(s, o)]).length - 1) =
      c.entries ++ [(s, o)] := by
    simpa using move_last c.entries [] (s, o)
  have hexcess : c.entries.length + 1 - c.capacity ≤ c.entries.length := by omega
  have hcount : (sources (c.entries.take (c.entries.length + 1 - c.capacity))).length =
      c.entries.length + 1 - c.capacity := by
    rw [length_sources, List.length_take]
    omega
  simp only [insert, if_neg hcapacity, put_of_notMem h, hmove, trim_eq]
  simp only [List.length_append, List.length_singleton, List.take_append_of_le_length hexcess,
    hcount]

end Cache

end UnitRegex
