import Mathlib.Data.List.Dedup
import Mathlib.Data.List.DropRight
import UnitRegex.Proofs.Engine.Compilations

/-!
What a cache holds after a row of uses: the sources used last, as many as fit, in the order of their
last uses. So a use hits exactly if fewer other sources than the cache has room for were used since
the last use of the same source.
-/

namespace UnitRegex

/-- The last `n` different elements of a row, in the order of their last places. -/
def lastDistinct {α : Type*} [DecidableEq α] (n : Nat) (l : List α) : List α := l.dedup.rtake n

section Rows

variable {α : Type*} {a : α} {l front back : List α} {n : Nat}

theorem rtake_of_length_le (h : l.length ≤ n) : l.rtake n = l := by
  rw [List.rtake, Nat.sub_eq_zero_of_le h, List.drop_zero]

theorem rtake_append_of_le_length (h : n ≤ back.length) : (front ++ back).rtake n = back.rtake n := by
  have hindex : (front ++ back).length - n = front.length + (back.length - n) := by
    rw [List.length_append]
    omega
  rw [List.rtake, List.rtake, hindex, List.drop_length_add_append]

/-- A row is what it ends with, or else its end is as long as it was asked for. -/
theorem eq_append_rtake (n : Nat) (l : List α) :
    ∃ front, l = front ++ l.rtake n ∧ (front = [] ∨ (l.rtake n).length = n) := by
  refine ⟨l.rdrop n, (List.take_append_drop _ l).symm, ?_⟩
  rcases Nat.le_total l.length n with hle | hle
  · left
    rw [List.rdrop, Nat.sub_eq_zero_of_le hle, List.take_zero]
  · right
    rw [List.rtake, List.length_drop]
    omega

/-- An element among different ones is one of the last ones if there are not many behind it. -/
theorem mem_rtake_iff (h : (front ++ a :: back).Nodup) :
    a ∈ (front ++ a :: back).rtake n ↔ back.length < n := by
  constructor
  · intro hmem
    by_contra hlong
    have hback : (front ++ a :: back).rtake n = back.rtake n := by
      rw [List.append_cons, rtake_append_of_le_length (by omega)]
    rw [hback] at hmem
    have hnodup : (a :: back).Nodup := h.of_append_right
    exact (List.nodup_cons.mp hnodup).1 (List.mem_of_mem_drop hmem)
  · intro hshort
    have hindex : (front ++ a :: back).length - n ≤ front.length := by
      rw [List.length_append, List.length_cons]
      omega
    rw [List.rtake, List.drop_append_of_le_length hindex]
    simp

/-- An element of a row has a last place. -/
theorem exists_last_place (h : a ∈ l) : ∃ before since, l = before ++ a :: since ∧ a ∉ since := by
  obtain ⟨since, before, heq, hsince⟩ := List.eq_append_cons_of_mem (List.mem_reverse.mpr h)
  refine ⟨before.reverse, since.reverse, ?_, by simpa using hsince⟩
  rw [← List.reverse_reverse l, heq]
  simp

end Rows

section Distinct

variable {α : Type*} [DecidableEq α] {a : α} {l : List α} {n : Nat}

/-- An element that comes again only has its new place. -/
theorem dedup_concat (l : List α) (a : α) : (l ++ [a]).dedup = l.dedup.erase a ++ [a] := by
  induction l with
  | nil => simp
  | cons b l ih =>
    rw [List.cons_append]
    by_cases hb : b ∈ l
    · have hmem : b ∈ l ++ [a] := List.mem_append_left _ hb
      rw [List.dedup_cons_of_mem hmem, List.dedup_cons_of_mem hb, ih]
    · rw [List.dedup_cons_of_notMem hb]
      by_cases hab : b = a
      · subst hab
        have hnot : b ∉ l.dedup := fun h => hb (List.mem_dedup.mp h)
        have hmem : b ∈ l ++ [b] := by simp
        rw [List.dedup_cons_of_mem hmem, ih, List.erase_cons_head, List.erase_of_not_mem hnot]
      · have hmem : b ∉ l ++ [a] := by simp [hb, hab]
        have hbeq : (b == a) = false := by simpa using hab
        rw [List.dedup_cons_of_notMem hmem, ih, List.erase_cons_tail (by simp [hab]),
          List.cons_append]

/-- What stands behind the last place of an element is behind it without repetitions, too. -/
theorem exists_dedup_append_cons {since : List α} (before : List α) (h : a ∉ since) :
    ∃ front, (before ++ a :: since).dedup = front ++ a :: since.dedup := by
  obtain ⟨front, -, hfront⟩ := List.sublist_suffix_of_union before (a :: since).dedup
  refine ⟨front, ?_⟩
  rw [List.dedup_append, ← hfront, List.dedup_cons_of_notMem h]

@[simp]
theorem lastDistinct_zero (l : List α) : lastDistinct 0 l = [] := List.rtake_zero _

/-- An element that was among the last ones moves to the end of them. -/
theorem lastDistinct_concat_of_mem (h : a ∈ lastDistinct (n + 1) l) :
    lastDistinct (n + 1) (l ++ [a]) = (lastDistinct (n + 1) l).erase a ++ [a] := by
  unfold lastDistinct at h ⊢
  rw [dedup_concat, List.rtake_concat_succ]
  obtain ⟨front, heq, hfull⟩ := eq_append_rtake (n + 1) l.dedup
  set last := l.dedup.rtake (n + 1) with hlast
  have hnodup : (front ++ last).Nodup := heq ▸ l.nodup_dedup
  have hfront : a ∉ front := fun hmem => List.disjoint_of_nodup_append hnodup hmem h
  have hlength : (last.erase a).length = last.length - 1 := List.length_erase_of_mem h
  have hbound : last.length ≤ n + 1 := by
    rw [hlast, List.rtake, List.length_drop]
    omega
  rw [heq, List.erase_append_right _ hfront]
  congr 1
  rcases hfull with rfl | hfull
  · exact rtake_of_length_le (by rw [List.nil_append]; omega)
  · rw [rtake_append_of_le_length (by omega)]
    exact rtake_of_length_le (by omega)

/-- An element that was not among the last ones takes the place of the first of them, if there is no
room. -/
theorem lastDistinct_concat_of_notMem (h : a ∉ lastDistinct (n + 1) l) :
    lastDistinct (n + 1) (l ++ [a]) = (lastDistinct (n + 1) l ++ [a]).rtake (n + 1) := by
  unfold lastDistinct at h ⊢
  rw [dedup_concat, List.rtake_concat_succ, List.rtake_concat_succ]
  obtain ⟨front, heq, hfull⟩ := eq_append_rtake (n + 1) l.dedup
  set last := l.dedup.rtake (n + 1)
  congr 1
  rw [heq]
  rcases hfull with rfl | hfull
  · rw [List.nil_append, List.erase_of_not_mem h]
  · rw [List.erase_append, List.erase_of_not_mem h]
    split <;> simp only [rtake_append_of_le_length (Nat.le_of_succ_le hfull.ge)]

/-- An element is among the last different ones if fewer others came since. -/
theorem mem_lastDistinct_iff :
    a ∈ lastDistinct n l ↔
      ∃ before since, l = before ++ a :: since ∧ a ∉ since ∧ since.dedup.length < n := by
  have hlast {before since : List α} (hl : l = before ++ a :: since) (ha : a ∉ since) :
      a ∈ lastDistinct n l ↔ since.dedup.length < n := by
    obtain ⟨front, hfront⟩ := exists_dedup_append_cons before ha
    have hnodup : (front ++ a :: since.dedup).Nodup := by
      rw [← hfront]
      exact List.nodup_dedup _
    rw [lastDistinct, hl, hfront, mem_rtake_iff hnodup]
  constructor
  · intro hmem
    have hl : a ∈ l := List.mem_dedup.mp (List.mem_of_mem_drop hmem)
    obtain ⟨before, since, heq, ha⟩ := exists_last_place hl
    exact ⟨before, since, heq, ha, (hlast heq ha).mp hmem⟩
  · rintro ⟨before, since, heq, ha, hfew⟩
    exact (hlast heq ha).mpr hfew

example : lastDistinct 2 [1, 2, 1, 3] = [1, 3] := by decide

end Distinct

namespace Cache

open CacheEntries

/-- What a cache remembers and counts after sources were used in a row. -/
structure Follows (used : List Source) (c : Cache) : Prop where
  sources_eq : c.entries.sources = lastDistinct c.capacity used
  uses : c.stats.hits + c.stats.misses = used.length
  compilations : c.stats.compilations = c.stats.misses
  balance : if c.capacity = 0 then c.stats.hits = 0 ∧ c.stats.evictions = 0
    else c.stats.misses = c.stats.evictions + c.size

variable {used : List Source} {c : Cache} {s : Source}

theorem Follows.capacity_pos (h : c.Follows used) (hs : s ∈ c.entries.sources) :
    c.capacity ≠ 0 := by
  intro hzero
  rw [h.sources_eq, hzero, lastDistinct_zero] at hs
  cases hs

end Cache

namespace Engine

open CacheEntries

variable {used : List Source} {e : Engine} {s : Source}

/-- A compilation whose outcome is known counts as a hit and makes its source the last one. -/
theorem follows_compile_of_mem (h : e.cache.Follows used) (hs : s ∈ e.cache.entries.sources) :
    (e.compile s).2.cache.Follows (used ++ [s]) ∧
      (e.compile s).2.stats.hits = e.stats.hits + 1 := by
  have hcapacity : e.cache.capacity ≠ 0 := h.capacity_pos hs
  obtain ⟨front, o, back, hentries, hfirst⟩ := exists_first_entry hs
  have hbalance : e.cache.stats.misses = e.cache.stats.evictions + e.cache.size := by
    simpa only [if_neg hcapacity] using h.balance
  have hsources : sources (front ++ back ++ [(s, o)]) =
      lastDistinct e.cache.capacity (used ++ [s]) := by
    obtain ⟨n, hn⟩ := Nat.exists_eq_add_one_of_ne_zero hcapacity
    have hlast : e.cache.entries.sources = lastDistinct (n + 1) used := hn ▸ h.sources_eq
    rw [hn, lastDistinct_concat_of_mem (hlast ▸ hs), ← hlast, hentries, sources_append,
      sources_append, sources_append, List.erase_append_right _ hfirst]
    simp
  rw [compile_of_first hentries hfirst]
  refine ⟨⟨hsources, ?_, h.compilations, ?_⟩, rfl⟩
  · have huses := h.uses
    simp only [List.length_append, List.length_singleton]
    omega
  · have hsize : (front ++ back ++ [(s, o)]).length = e.cache.size := by
      simp [Cache.size, hentries]
    simp only [Cache.size, hcapacity, if_false, hsize]
    exact hbalance

/-- A compilation whose outcome is not known counts as a miss and stores its source as the last
one, if the cache stores anything. -/
theorem follows_compile_of_notMem (h : e.cache.Follows used) (hs : s ∉ e.cache.entries.sources) :
    (e.compile s).2.cache.Follows (used ++ [s]) ∧ (e.compile s).2.stats.hits = e.stats.hits := by
  obtain ⟨-, -, -, hcache⟩ := compile_of_notMem hs
  have huses := h.uses
  have hcompilations := h.compilations
  have hbalance := h.balance
  unfold stats
  rw [hcache]
  by_cases hcapacity : e.cache.capacity = 0
  · have hafter : e.cacheAfterMiss.capacity = 0 := hcapacity
    rw [Cache.insert_of_capacity_eq_zero hafter]
    have hsources : e.cache.entries.sources = lastDistinct e.cache.capacity (used ++ [s]) := by
      rw [h.sources_eq, hcapacity, lastDistinct_zero, lastDistinct_zero]
    refine ⟨⟨hsources, ?_, ?_, ?_⟩, rfl⟩
    · simp only [cacheAfterMiss, List.length_append, List.length_singleton]
      omega
    · simp only [cacheAfterMiss]
      omega
    · simpa [cacheAfterMiss, hcapacity] using hbalance
  · have hafter : e.cacheAfterMiss.capacity ≠ 0 := hcapacity
    rw [Cache.insert_of_notMem hafter hs]
    have hsources (o : Outcome) :
        sources ((e.cache.entries ++ [(s, o)]).drop (e.cache.entries.length + 1 - e.cache.capacity)) =
          lastDistinct e.cache.capacity (used ++ [s]) := by
      obtain ⟨n, hn⟩ := Nat.exists_eq_add_one_of_ne_zero hcapacity
      have hlast : e.cache.entries.sources = lastDistinct (n + 1) used := hn ▸ h.sources_eq
      rw [hn, lastDistinct_concat_of_notMem (hlast ▸ hs), ← hlast, List.rtake, sources,
        List.map_drop, List.map_append]
      simp [sources]
    have hmisses : e.cache.stats.misses = e.cache.stats.evictions + e.cache.entries.length := by
      rwa [if_neg hcapacity] at hbalance
    refine ⟨⟨hsources _, ?_, ?_, ?_⟩, rfl⟩
    · simp only [cacheAfterMiss, List.length_append, List.length_singleton]
      omega
    · simp only [cacheAfterMiss]
      omega
    · simp only [cacheAfterMiss, Cache.size, if_neg hcapacity, List.length_drop, List.length_append,
        List.length_singleton]
      omega

end Engine

end UnitRegex
