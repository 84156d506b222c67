import UnitRegex.Proofs.Matching.Plain
import UnitRegex.Proofs.Table.Looks
import UnitRegex.Proofs.Table.Pieces
import UnitRegex.Table.OpenLook

/-!
Progress through the bodies of look-behinds. It lists exactly the beginnings of bodies that the text
just read ends with, as far back as reading began, so a body is complete where its look-behind
holds, provided that reading began far enough in front.
-/

namespace UnitRegex

namespace Progress

/-- Progress lists the beginnings of bodies that the units from `floor` up to `cursor` end with. -/
def Tracks (nfa : Nfa) (text : Text) (floor cursor : Nat) (progress : Progress) : Prop :=
  ∀ (body : Nat) (sets : List CharSet), nfa.lookBehinds[body]? = some sets →
    ∀ n, 0 < n → n ≤ sets.length →
      ((UInt16.ofNat body, UInt16.ofNat n) ∈ progress ↔
        floor + n ≤ cursor ∧ text.matchesAt (cursor - n) (sets.take n) = true)

/-- The bodies and the units in them can be numbered with sixteen bits. -/
structure Numberable (nfa : Nfa) : Prop where
  bodies : nfa.lookBehinds.length ≤ 65536
  lengths : ∀ sets ∈ nfa.lookBehinds, sets.length < 65536

variable {nfa : Nfa} {text : Text} {floor cursor : Nat} {progress : Progress}

theorem tracks_nil : Tracks nfa text floor floor [] := by
  intro body sets _ n hn _
  constructor
  · intro h
    simp at h
  · intro h
    omega

theorem mem_bodyAfter {u : CodeUnit} {sets : List CharSet} {body : Nat} {x : UInt16 × UInt16} :
    x ∈ progress.bodyAfter u sets body ↔
      ∃ n, (n = 0 ∨ ∃ m, (UInt16.ofNat body, m) ∈ progress ∧ n = m.toNat) ∧
        sets[n]?.any (·.contains u) = true ∧ x = (UInt16.ofNat body, UInt16.ofNat (n + 1)) := by
  simp only [bodyAfter, List.mem_map, List.mem_filter, List.mem_cons, Prod.exists, beq_iff_eq]
  constructor
  · rintro ⟨n, ⟨hn, hset⟩, rfl⟩
    refine ⟨n, hn.imp id ?_, hset, rfl⟩
    rintro ⟨b, m, ⟨hmem, rfl⟩, rfl⟩
    exact ⟨m, hmem, rfl⟩
  · rintro ⟨n, hn, hset, rfl⟩
    refine ⟨n, ⟨hn.imp id ?_, hset⟩, rfl⟩
    rintro ⟨m, hmem, rfl⟩
    exact ⟨_, m, ⟨hmem, rfl⟩, rfl⟩

theorem mem_after {u : CodeUnit} {x : UInt16 × UInt16} :
    x ∈ progress.after nfa u ↔
      ∃ body sets, nfa.lookBehinds[body]? = some sets ∧ x ∈ progress.bodyAfter u sets body := by
  simp only [after, mem_eraseReps, List.mem_mergeSort, List.mem_flatMap, Prod.exists,
    List.mem_zipIdx_iff_getElem?]
  constructor
  · rintro ⟨sets, body, hget, hmem⟩
    exact ⟨body, sets, hget, hmem⟩
  · rintro ⟨body, sets, hget, hmem⟩
    exact ⟨sets, body, hget, hmem⟩

theorem ofNat_inj {a b : Nat} (ha : a < 65536) (hb : b < 65536)
    (h : UInt16.ofNat a = UInt16.ofNat b) : a = b := by
  have := congrArg UInt16.toNat h
  rwa [UInt16.toNat_ofNat_of_lt' ha, UInt16.toNat_ofNat_of_lt' hb] at this

/-- Only the progress of a body itself and one more unit of it lead to more progress of it. -/
theorem mem_after_iff (hnum : Numberable nfa) {u : CodeUnit} {body n : Nat}
    {sets : List CharSet} (hbody : nfa.lookBehinds[body]? = some sets) (hn : n < sets.length) :
    (UInt16.ofNat body, UInt16.ofNat (n + 1)) ∈ progress.after nfa u ↔
      (n = 0 ∨ (UInt16.ofNat body, UInt16.ofNat n) ∈ progress) ∧
        sets[n]?.any (·.contains u) = true := by
  have hlength := hnum.lengths sets (List.mem_of_getElem? hbody)
  have hid : ∀ (i : Nat) (s : List CharSet), nfa.lookBehinds[i]? = some s → i < 65536 := by
    intro i s hi
    obtain ⟨hlt, -⟩ := List.getElem?_eq_some_iff.mp hi
    have := hnum.bodies
    omega
  rw [mem_after]
  constructor
  · rintro ⟨body', sets', hbody', hmem⟩
    obtain ⟨n', hreached, hset, heq⟩ := mem_bodyAfter.mp hmem
    obtain ⟨hbodies, hlengths⟩ := Prod.mk.inj heq
    obtain rfl := ofNat_inj (hid _ _ hbody) (hid _ _ hbody') hbodies
    obtain rfl : sets = sets' := Option.some.inj (hbody.symm.trans hbody')
    obtain ⟨set, hget, -⟩ := (Option.any_eq_true _ _).mp hset
    obtain ⟨hlt, -⟩ := List.getElem?_eq_some_iff.mp hget
    obtain rfl : n = n' := by
      have := ofNat_inj (by omega) (by omega) hlengths
      omega
    refine ⟨hreached.imp id ?_, hset⟩
    rintro ⟨m, hm, rfl⟩
    rwa [UInt16.ofNat_toNat]
  · rintro ⟨hreached, hset⟩
    refine ⟨body, sets, hbody, mem_bodyAfter.mpr ⟨n, hreached.imp id fun h => ?_, hset, rfl⟩⟩
    exact ⟨_, h, (UInt16.toNat_ofNat_of_lt' (show n < 65536 by omega)).symm⟩

/-- A beginning that the text ends with after one more unit is one unit longer than before. -/
theorem Tracks.after (hnum : Numberable nfa) (h : Tracks nfa text floor cursor progress)
    (hfloor : floor ≤ cursor) {u : CodeUnit} (hu : text[cursor]? = some u) :
    Tracks nfa text floor (cursor + 1) (progress.after nfa u) := by
  intro body sets hbody n hn hlength
  obtain ⟨n, rfl⟩ : ∃ m, n = m + 1 := ⟨n - 1, by omega⟩
  have hbefore : (n = 0 ∨ (UInt16.ofNat body, UInt16.ofNat n) ∈ progress) ↔
      floor + n ≤ cursor ∧ text.matchesAt (cursor - n) (sets.take n) = true := by
    cases n with
    | zero => simp [hfloor, Text.matchesAt]
    | succ n =>
      rw [← h body sets hbody (n + 1) (by omega) (by omega)]
      simp
  rw [mem_after_iff hnum hbody (by omega), hbefore]
  have hle : floor + (n + 1) ≤ cursor + 1 ↔ floor + n ≤ cursor := by omega
  rw [hle, and_assoc]
  refine and_congr_right fun hwindow => ?_
  rw [show cursor + 1 - (n + 1) = cursor - n by omega, List.take_succ_eq_append_getElem (by omega),
    Text.matchesAt_append, List.length_take_of_le (by omega),
    show cursor - n + n = cursor by omega, Bool.and_eq_true,
    List.getElem?_eq_getElem (show n < sets.length by omega)]
  simp [Text.matchesAt, hu]

/-- A body is complete where its look-behind holds, if reading began far enough in front. -/
theorem holds_behind (h : Tracks nfa text floor cursor progress)
    {context : Nat} (hcontext : ∀ sets ∈ nfa.lookBehinds, sets.length ≤ context)
    (hfar : floor = 0 ∨ floor + context ≤ cursor) (body : Nat) (negated : Bool) :
    nfa.holds text cursor (.behind body negated) = (progress.complete nfa body != negated) := by
  rw [Nfa.holds, complete]
  congr 1
  cases hbody : nfa.lookBehinds[body]? with
  | none => simp [Text.matchesAt]
  | some sets =>
    rw [Option.getD_some]
    have hlength := hcontext sets (List.mem_of_getElem? hbody)
    cases hsets : sets.length with
    | zero =>
      obtain rfl := List.length_eq_zero_iff.mp hsets
      simp [Text.matchesAt]
    | succ n =>
      have htracks := h body sets hbody (n + 1) (by omega) (by omega)
      rw [← hsets, List.take_length] at htracks
      rw [← hsets, Bool.eq_iff_iff, Bool.or_eq_true, List.contains_iff_mem, htracks,
        Bool.and_eq_true, decide_eq_true_eq]
      have hne : ¬(sets.length == 0) = true := by simp [hsets]
      have hle : sets.length ≤ cursor ↔ floor + sets.length ≤ cursor := by
        rcases hfar with rfl | hfar <;> omega
      rw [hle]
      tauto

end Progress

end UnitRegex
