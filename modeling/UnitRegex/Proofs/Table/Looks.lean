import Mathlib.Data.Nat.Bitwise
import UnitRegex.Search.Threads
import UnitRegex.Table.OpenLook

/-!
What an open look-ahead still asks of the text. It holds at a position if the rest of one of its
live branches matches there, or none does for a negated one, and reading a unit moves this question
one position on until it is answered.
-/

namespace UnitRegex

namespace OpenLook

theorem toNat_bit {j : Nat} (hj : j < 32) : (bit j).toNat = 2 ^ j := by
  have hpow : 2 ^ j < 2 ^ 32 := Nat.pow_lt_pow_right (by omega) hj
  have hmod : j.toUInt32.toNat % 32 = j := by
    simp only [Nat.toUInt32_eq, UInt32.toNat_ofNat']
    omega
  simp only [bit, UInt32.toNat_shiftLeft, hmod, UInt32.toNat_one, Nat.one_shiftLeft]
  exact Nat.mod_eq_of_lt hpow

theorem and_bit_ne_zero {mask : UInt32} {j : Nat} (hj : j < 32) :
    (mask &&& bit j != 0) = mask.toNat.testBit j := by
  rw [Bool.eq_iff_iff, bne_iff_ne, ne_eq, ← UInt32.toNat_inj, UInt32.toNat_and, toNat_bit hj,
    Nat.and_two_pow]
  have hpos : 0 < 2 ^ j := Nat.two_pow_pos j
  cases mask.toNat.testBit j <;> simp

theorem testBit_maskOf {l : List Nat} (hl : ∀ b ∈ l, b < 32) {j : Nat} (hj : j < 32) :
    (maskOf l &&& bit j != 0) = decide (j ∈ l) := by
  have hfold : ∀ mask : UInt32, (l.foldl (fun mask b => mask ||| bit b) mask).toNat.testBit j =
      (mask.toNat.testBit j || decide (j ∈ l)) := by
    induction l with
    | nil => simp
    | cons b l ih =>
      intro mask
      rw [List.foldl_cons, ih fun a ha => hl a (by simp [ha])]
      rw [UInt32.toNat_or, Nat.testBit_or, toNat_bit (hl b (by simp)), Nat.testBit_two_pow]
      by_cases hb : b = j
      · subst hb
        simp
      · have hne : j ≠ b := fun h => hb h.symm
        simp [hb, hne]
  rw [and_bit_ne_zero hj, maskOf, hfold]
  simp

/-- Whether the rest of a live branch matches at a position. -/
def sees (nfa : Nfa) (text : Text) (cursor : Nat) (p : OpenLook) : Bool :=
  (p.live nfa).any fun b => text.matchesAt cursor (b.1.drop p.read.toNat)

/-- Whether the text from a position on is as an open look-ahead asks. -/
def holds (nfa : Nfa) (text : Text) (cursor : Nat) (p : OpenLook) : Bool :=
  p.sees nfa text cursor != p.negated

/-- A look-ahead that was passed at most `d` units ago and is still undecided. -/
structure Undecided (nfa : Nfa) (d : Nat) (p : OpenLook) : Prop where
  read_le : p.read.toNat ≤ d
  live : ∀ b ∈ p.live nfa, p.read.toNat < b.1.length

/-- No branch of a look-ahead is numbered beyond a mask. -/
def FewBranches (nfa : Nfa) : Prop := ∀ body, (nfa.branches body).length ≤ 32

end OpenLook

/-- A verdict is right if it answers a question, or leaves it to the text from a position on. -/
def LookVerdict.Tells (nfa : Nfa) (text : Text) (cursor d : Nat) (answer : Bool) :
    LookVerdict → Prop
  | holds => answer = true
  | fails => answer = false
  | undecided p => p.Undecided nfa d ∧ p.holds nfa text cursor = answer

/-- Behind the end of a text only an empty sequence matches. -/
theorem Text.matchesAt_of_size_le {text : Text} {cursor : Nat} (h : text.size ≤ cursor)
    (sets : List CharSet) : text.matchesAt cursor sets = sets.isEmpty := by
  cases sets with
  | nil => rfl
  | cons set sets => simp [matchesAt, Array.getElem?_eq_none h]

theorem Text.matchesAt_drop {text : Text} {cursor n : Nat} {u : CodeUnit} {sets : List CharSet}
    (hu : text[cursor]? = some u) (hn : n < sets.length) :
    text.matchesAt cursor (sets.drop n) =
      (sets[n]?.any (·.contains u) && text.matchesAt (cursor + 1) (sets.drop (n + 1))) := by
  rw [List.drop_eq_getElem_cons hn, matchesAt, hu, List.getElem?_eq_getElem hn]
  rfl

namespace OpenLook

variable {nfa : Nfa} {text : Text} {cursor d : Nat}

theorem holds_ofFound (negated found : Bool) :
    (LookVerdict.ofFound negated found).Tells nfa text cursor d (found != negated) := by
  unfold LookVerdict.ofFound
  split
  · rename_i h
    simpa [LookVerdict.Tells] using h
  · rename_i h
    simpa [LookVerdict.Tells] using h

theorem mem_live {p : OpenLook} {b : List CharSet × Nat} :
    b ∈ p.live nfa ↔ (nfa.branches p.body.toNat)[b.2]? = some b.1 ∧
      (p.alive &&& bit b.2 != 0) = true := by
  rw [live, List.mem_filter, List.mem_zipIdx_iff_getElem?]

theorem live_lt {body j : Nat} {sets : List CharSet} (hfew : (nfa.branches body).length ≤ 32)
    (h : (nfa.branches body)[j]? = some sets) : j < 32 := by
  obtain ⟨hlt, -⟩ := List.getElem?_eq_some_iff.mp h
  exact Nat.lt_of_lt_of_le hlt hfew

/-- At the end of the input every look-ahead is decided. -/
theorem start_ne_undecided (nfa : Nfa) (body : Nat) (negated : Bool) (p : OpenLook) :
    start nfa body negated true ≠ .undecided p := by
  unfold start
  dsimp only
  split
  · exact LookVerdict.ofFound_ne_undecided negated true p
  · exact LookVerdict.ofFound_ne_undecided negated false p

theorem start_tells {body : Nat} (hfew : (nfa.branches body).length ≤ 32) (hbody : body < 65536)
    (negated : Bool) {atEnd : Bool} (hend : atEnd = true → cursor = text.size) :
    (start nfa body negated atEnd).Tells nfa text cursor d
      (nfa.holds text cursor (.ahead body negated)) := by
  have hholds : nfa.holds text cursor (.ahead body negated) =
      ((nfa.branches body).any (text.matchesAt cursor) != negated) := rfl
  unfold start
  dsimp only
  split
  · rename_i hempty
    obtain ⟨sets, hmem, hsets⟩ := List.any_eq_true.mp hempty
    have hfound : (nfa.branches body).any (text.matchesAt cursor) = true := by
      refine List.any_eq_true.mpr ⟨sets, hmem, ?_⟩
      rw [List.isEmpty_iff.mp hsets]
      rfl
    rw [hholds, hfound]
    exact holds_ofFound negated true
  rename_i hnone
  have hne : ∀ sets ∈ nfa.branches body, sets ≠ [] := by
    intro sets hmem hsets
    exact hnone (List.any_eq_true.mpr ⟨sets, hmem, by simp [hsets]⟩)
  split
  · rename_i hatEnd
    have hfound : (nfa.branches body).any (text.matchesAt cursor) = false := by
      rw [List.any_eq_false]
      intro sets hmem
      rw [Text.matchesAt_of_size_le (Nat.le_of_eq (hend hatEnd).symm)]
      simpa using hne sets hmem
    rw [hholds, hfound]
    exact holds_ofFound negated false
  · have hid : (UInt16.ofNat body).toNat = body := UInt16.toNat_ofNat_of_lt' hbody
    have hmask : ∀ b : List CharSet × Nat,
        b ∈ live nfa ⟨UInt16.ofNat body, negated, 0, maskOf (List.range (nfa.branches body).length)⟩
          ↔ (nfa.branches body)[b.2]? = some b.1 := by
      intro b
      rw [mem_live, hid]
      refine ⟨fun h => h.1, fun h => ⟨h, ?_⟩⟩
      obtain ⟨hlt, -⟩ := List.getElem?_eq_some_iff.mp h
      rw [testBit_maskOf (fun i hi => ?_) (live_lt hfew h)]
      · simpa using hlt
      · exact Nat.lt_of_lt_of_le (List.mem_range.mp hi) hfew
    refine ⟨⟨by simp, fun b hb => ?_⟩, ?_⟩
    · have hb := (hmask b).mp hb
      exact List.length_pos_iff.mpr (hne b.1 (List.mem_of_getElem? hb))
    · rw [hholds, holds, sees]
      congr 1
      rw [Bool.eq_iff_iff, List.any_eq_true, List.any_eq_true]
      constructor
      · rintro ⟨b, hb, hmatch⟩
        exact ⟨b.1, List.mem_of_getElem? ((hmask b).mp hb), by simpa using hmatch⟩
      · rintro ⟨sets, hmem, hmatch⟩
        obtain ⟨j, hj⟩ := List.getElem?_of_mem hmem
        exact ⟨(sets, j), (hmask _).mpr hj, by simpa using hmatch⟩

/-- The live branches that go on with a unit. -/
def survivors (nfa : Nfa) (u : CodeUnit) (p : OpenLook) : List (List CharSet × Nat) :=
  (p.live nfa).filter fun b => b.1[p.read.toNat]?.any (·.contains u)

theorem after_eq (nfa : Nfa) (p : OpenLook) (u : CodeUnit) :
    p.after nfa u =
      if (p.survivors nfa u).any (fun b => b.1.length = p.read.toNat + 1) ||
          (p.survivors nfa u).isEmpty then
        .ofFound p.negated ((p.survivors nfa u).any fun b => b.1.length = p.read.toNat + 1)
      else .undecided { p with
        read := p.read + 1, alive := maskOf ((p.survivors nfa u).map (·.2)) } := rfl

theorem mem_survivors {p : OpenLook} {u : CodeUnit} {b : List CharSet × Nat} :
    b ∈ p.survivors nfa u ↔ b ∈ p.live nfa ∧ b.1[p.read.toNat]?.any (·.contains u) = true := by
  rw [survivors, List.mem_filter]

/-- A branch matches here if it goes on with the unit and its rest matches behind it. -/
theorem sees_eq_any_survivors {p : OpenLook} (hp : p.Undecided nfa d) {u : CodeUnit}
    (hu : text[cursor]? = some u) :
    p.sees nfa text cursor = (p.survivors nfa u).any fun b =>
      text.matchesAt (cursor + 1) (b.1.drop (p.read.toNat + 1)) := by
  rw [Bool.eq_iff_iff, sees, List.any_eq_true, List.any_eq_true]
  constructor
  · rintro ⟨b, hb, hmatch⟩
    rw [Text.matchesAt_drop hu (hp.live b hb), Bool.and_eq_true] at hmatch
    exact ⟨b, mem_survivors.mpr ⟨hb, hmatch.1⟩, hmatch.2⟩
  · rintro ⟨b, hb, hmatch⟩
    obtain ⟨hlive, hset⟩ := mem_survivors.mp hb
    refine ⟨b, hlive, ?_⟩
    rw [Text.matchesAt_drop hu (hp.live b hlive), hset, hmatch]
    rfl

/-- The mask of the survivors makes them the live branches. -/
theorem mem_live_survivors {p : OpenLook} (hfew : (nfa.branches p.body.toNat).length ≤ 32)
    {u : CodeUnit} {read : UInt16} {b : List CharSet × Nat} :
    b ∈ live nfa { p with read := read, alive := maskOf ((p.survivors nfa u).map (·.2)) } ↔
      b ∈ p.survivors nfa u := by
  rw [mem_live]
  constructor
  · rintro ⟨hget, hbit⟩
    rw [testBit_maskOf (fun i hi => ?_) (live_lt hfew hget)] at hbit
    · obtain ⟨b', hb', hj⟩ := List.mem_map.mp (of_decide_eq_true hbit)
      have hget' := (mem_live.mp (mem_survivors.mp hb').1).1
      rw [hj, hget] at hget'
      have heq : b = b' := Prod.ext (Option.some.inj hget') hj.symm
      exact heq ▸ hb'
    · obtain ⟨b', hb', rfl⟩ := List.mem_map.mp hi
      exact live_lt hfew (mem_live.mp (mem_survivors.mp hb').1).1
  · intro hb
    have hget := (mem_live.mp (mem_survivors.mp hb).1).1
    refine ⟨hget, ?_⟩
    rw [testBit_maskOf (fun i hi => ?_) (live_lt hfew hget)]
    · exact decide_eq_true (List.mem_map.mpr ⟨b, hb, rfl⟩)
    · obtain ⟨b', hb', rfl⟩ := List.mem_map.mp hi
      exact live_lt hfew (mem_live.mp (mem_survivors.mp hb').1).1

theorem toNat_add_one {n : UInt16} {d : Nat} (hn : n.toNat ≤ d) (hd : d < 65535) :
    (n + 1).toNat = n.toNat + 1 := by
  rw [UInt16.toNat_add, UInt16.toNat_one]
  omega

/-- One more unit moves the question on, as long as the number of units read does not wrap. -/
theorem after_tells {p : OpenLook} (hfew : (nfa.branches p.body.toNat).length ≤ 32)
    (hp : p.Undecided nfa d) {u : CodeUnit} (hu : text[cursor]? = some u)
    (hroom : ∀ b ∈ p.survivors nfa u, b.1.length ≠ p.read.toNat + 1 →
      p.read.toNat < 65535) :
    (p.after nfa u).Tells nfa text (cursor + 1) (d + 1) (p.holds nfa text cursor) := by
  rw [holds, sees_eq_any_survivors hp hu, after_eq]
  split
  · rename_i hover
    rcases Bool.or_eq_true_iff.mp hover with hfound | hempty
    · obtain ⟨b, hb, hlength⟩ := List.any_eq_true.mp hfound
      have hsees : ((p.survivors nfa u).any fun b =>
          text.matchesAt (cursor + 1) (b.1.drop (p.read.toNat + 1))) = true := by
        refine List.any_eq_true.mpr ⟨b, hb, ?_⟩
        rw [List.drop_of_length_le (by simpa using Nat.le_of_eq (of_decide_eq_true hlength))]
        rfl
      rw [hsees, hfound]
      exact holds_ofFound p.negated true
    · rw [List.isEmpty_iff.mp hempty]
      exact holds_ofFound p.negated false
  · rename_i hopen
    simp only [Bool.or_eq_true, not_or, List.any_eq_true, not_exists, not_and] at hopen
    have hread : (p.read + 1).toNat = p.read.toNat + 1 := by
      obtain ⟨b, hb⟩ := List.exists_mem_of_ne_nil _ (mt List.isEmpty_iff.mpr hopen.2)
      exact toNat_add_one (Nat.le_refl _) (hroom b hb (by simpa using hopen.1 b hb))
    refine ⟨⟨?_, fun b hb => ?_⟩, ?_⟩
    · have := hp.read_le
      simp only [hread]
      omega
    · have hb := (mem_live_survivors hfew).mp hb
      obtain ⟨-, hset⟩ := mem_survivors.mp hb
      obtain ⟨set, hget, -⟩ := (Option.any_eq_true _ _).mp hset
      obtain ⟨hlt, -⟩ := List.getElem?_eq_some_iff.mp hget
      have hne := hopen.1 b hb
      simp only [decide_eq_true_eq] at hne
      simp only [hread]
      omega
    · rw [holds, sees]
      congr 1
      simp only [hread]
      rw [Bool.eq_iff_iff, List.any_eq_true, List.any_eq_true]
      exact ⟨fun ⟨b, hb, h⟩ => ⟨b, (mem_live_survivors hfew).mp hb, h⟩,
        fun ⟨b, hb, h⟩ => ⟨b, (mem_live_survivors hfew).mpr hb, h⟩⟩

/-- At the end of the text a look-ahead that is still open has seen no branch. -/
theorem holds_size {p : OpenLook} (hp : p.Undecided nfa d) :
    p.holds nfa text text.size = p.negated := by
  have hsees : p.sees nfa text text.size = false := by
    rw [sees, List.any_eq_false]
    intro b hb
    have hlt := hp.live b hb
    rw [Text.matchesAt_of_size_le (Nat.le_refl _), List.isEmpty_iff, List.drop_eq_nil_iff]
    omega
  rw [holds, hsees]
  cases p.negated <;> rfl

theorem mem_insertInto {p q : OpenLook} {l : List OpenLook} :
    q ∈ p.insertInto l ↔ q = p ∨ q ∈ l := by
  induction l with
  | nil => simp [insertInto]
  | cons a l ih =>
    unfold insertInto
    split
    · rename_i h
      subst h
      simp
    · split
      · simp
      · rw [List.mem_cons, ih, List.mem_cons]
        tauto

/-- All look-aheads of a list hold at a position. -/
def allHold (nfa : Nfa) (text : Text) (cursor : Nat) (looks : List OpenLook) : Bool :=
  looks.all (·.holds nfa text cursor)

theorem allHold_insertInto (p : OpenLook) (looks : List OpenLook) :
    allHold nfa text cursor (p.insertInto looks) =
      (p.holds nfa text cursor && allHold nfa text cursor looks) := by
  rw [Bool.eq_iff_iff, allHold, allHold, Bool.and_eq_true, List.all_eq_true, List.all_eq_true]
  simp [mem_insertInto]

/-- Reading a unit leaves the look-aheads that have to hold one position on, unless one fails. -/
theorem allAfter?_spec (hfew : FewBranches nfa) {looks : List OpenLook}
    (hlooks : ∀ p ∈ looks, p.Undecided nfa d) (hd : d < 65535) {u : CodeUnit}
    (hu : text[cursor]? = some u) :
    (∀ looks', allAfter? nfa u looks = some looks' →
      (∀ p ∈ looks', p.Undecided nfa (d + 1)) ∧
      allHold nfa text cursor looks = allHold nfa text (cursor + 1) looks') ∧
    (allAfter? nfa u looks = none → allHold nfa text cursor looks = false) := by
  induction looks with
  | nil =>
    refine ⟨fun looks' h => ?_, fun h => by simp [allAfter?] at h⟩
    obtain rfl := Option.some.inj h
    exact ⟨by simp, rfl⟩
  | cons p rest ih =>
    obtain ⟨hsome, hnone⟩ := ih fun q hq => hlooks q (by simp [hq])
    have hp := hlooks p (by simp)
    have htells := after_tells (hfew _) hp hu fun _ _ _ => by
      have := hp.read_le
      omega
    have hcons : allHold nfa text cursor (p :: rest) =
        (p.holds nfa text cursor && allHold nfa text cursor rest) := by
      simp [allHold]
    rw [hcons]
    unfold allAfter?
    cases hafter : p.after nfa u with
    | fails =>
      rw [hafter] at htells
      simp only [LookVerdict.Tells] at htells
      simp [htells]
    | holds =>
      rw [hafter] at htells
      simp only [LookVerdict.Tells] at htells
      rw [htells, Bool.true_and]
      cases hrest : allAfter? nfa u rest with
      | none => simp [hnone hrest]
      | some looks =>
        refine ⟨fun looks' h => ?_, fun h => by simp at h⟩
        obtain rfl := Option.some.inj h
        exact hsome looks hrest
    | undecided q =>
      rw [hafter] at htells
      obtain ⟨hq, hholds⟩ := htells
      cases hrest : allAfter? nfa u rest with
      | none => simp [hnone hrest]
      | some looks =>
        refine ⟨fun looks' h => ?_, fun h => by simp at h⟩
        obtain rfl := Option.some.inj h
        obtain ⟨hopen, heq⟩ := hsome looks hrest
        refine ⟨fun a ha => ?_, ?_⟩
        · rcases mem_insertInto.mp ha with rfl | ha
          · exact hq
          · exact hopen a ha
        · rw [allHold_insertInto, hholds, heq]

end OpenLook

end UnitRegex
