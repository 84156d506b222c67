import Mathlib.Data.List.Find
import UnitRegex.Proofs.Paths.Accepting
import UnitRegex.Proofs.Table.Walks
import UnitRegex.Paths.PathTable

/-!
What a subset of paths reports. Its entries are in the order of their ids, so the smallest id among
the complete paths is that of the first one; a walk to the left reports it at the first position
where a path that ends at the right place fits.
-/

namespace UnitRegex

namespace ResultIds

/-- All ids known so far are smaller than some other one. -/
structure Below (r : ResultIds) (id : UInt8) : Prop where
  free : ∀ a, r.free? = some a → a < id
  anchored : ∀ a, r.anchored? = some a → a < id

variable {r : ResultIds} {id other : UInt8}

theorem below_empty (id : UInt8) : ({} : ResultIds).Below id := by
  constructor <;> simp [free?, anchored?, known?]

/-- The smaller one of two ids is the one that was known, if any was. -/
theorem known?_min {a : UInt8} (ha : ∀ b, known? a = some b → b < id) (hid : id ≠ noResult) :
    known? (if id < a then id else a) = (known? a).or (some id) := by
  have hknown : known? id = some id := by simp [known?, hid]
  by_cases hnone : a = noResult
  · have hlt : id < a := by
      rw [UInt8.lt_iff_toNat_lt, hnone]
      have hne : id.toNat ≠ 255 := fun h => hid (UInt8.toNat_inj.mp h)
      have := id.toNat_lt
      show id.toNat < 255
      omega
    rw [if_pos hlt, hknown, hnone]
    rfl
  · have hsome : known? a = some a := by simp [known?, hnone]
    have hlt : ¬id < a := by
      have := ha a hsome
      rw [UInt8.lt_iff_toNat_lt] at this ⊢
      omega
    rw [if_neg hlt, hsome]
    rfl

theorem free?_add (hr : r.Below id) (hid : id ≠ noResult) (anchored : Bool) :
    (r.add id anchored).free? = if anchored then r.free? else r.free?.or (some id) := by
  cases anchored with
  | true => rfl
  | false => exact known?_min hr.free hid

theorem anchored?_add (hr : r.Below id) (hid : id ≠ noResult) (anchored : Bool) :
    (r.add id anchored).anchored? = if anchored then r.anchored?.or (some id) else r.anchored? := by
  cases anchored with
  | true => exact known?_min hr.anchored hid
  | false => rfl

/-- A greater id only counts where none was known. -/
theorem choose?_add (hr : r.Below id) (hid : id ≠ noResult) (anchored atStart : Bool) :
    (r.add id anchored).choose? atStart =
      (r.choose? atStart).or (if !anchored || atStart then some id else none) := by
  rw [choose?, choose?, free?_add hr hid, anchored?_add hr hid]
  have hfree := hr.free
  have hanchored := hr.anchored
  cases hf : r.free? with
  | none =>
    cases ha : r.anchored? with
    | none => cases anchored <;> cases atStart <;> simp
    | some a =>
      have hlt : ¬id < a := by
        have := hanchored a ha
        rw [UInt8.lt_iff_toNat_lt] at this ⊢
        omega
      cases anchored <;> cases atStart <;> simp [Option.filter, hlt]
  | some u =>
    have hlt := hfree u hf
    cases ha : r.anchored? with
    | none => cases anchored <;> cases atStart <;> simp [Option.filter, hlt]
    | some a => cases anchored <;> cases atStart <;> simp [Option.filter]

theorem Below.add (hr : r.Below id) (hid : id ≠ noResult) (hlt : id < other) (anchored : Bool) :
    (r.add id anchored).Below other := by
  have hold : ∀ {a : UInt8}, a < id → a < other := fun h => by
    rw [UInt8.lt_iff_toNat_lt] at *
    omega
  have hnew : ∀ (known : Option UInt8), (∀ a, known = some a → a < id) →
      ∀ a, known.or (some id) = some a → a < other := by
    intro known hknown a ha
    cases known with
    | none => exact Option.some.inj ha ▸ hlt
    | some b => exact Option.some.inj ha ▸ hold (hknown b rfl)
  constructor
  · rw [free?_add hr hid]
    cases anchored with
    | true => exact fun a ha => hold (hr.free a ha)
    | false => exact hnew _ hr.free
  · rw [anchored?_add hr hid]
    cases anchored with
    | true => exact hnew _ hr.anchored
    | false => exact fun a ha => hold (hr.anchored a ha)

/-- What is reported anywhere is outdone at the start of the input, but it does not go away. -/
theorem isSome_choose? (h : (r.choose? false).isSome = true) (atStart : Bool) :
    (r.choose? atStart).isSome = true := by
  unfold choose? at h ⊢
  cases hf : r.free? with
  | none =>
    rw [hf] at h
    simp at h
  | some u => cases ha : r.anchored?.filter fun _ => atStart <;> simp

end ResultIds

namespace PathSubset

variable {paths : Array Path} {text : Text} {key : PathSubset} {depth cursor i : Nat}

/-- Entries in the order of their ids, each read from its end as far as the others. -/
structure ReadTo (depth : Nat) (key : PathSubset) : Prop where
  sorted : key.Pairwise fun a b => a.1 < b.1
  depth : ∀ e ∈ key, e.2.toNat = depth

theorem readTo_initial (hfew : paths.size ≤ 254) : (initial paths).ReadTo 0 where
  sorted := by
    rw [initial, List.pairwise_map]
    refine (List.pairwise_lt_range).imp_of_mem fun {a b} ha hb hlt => ?_
    have hb := List.mem_range.mp hb
    rw [UInt8.lt_iff_toNat_lt]
    show (UInt8.ofNat a).toNat < (UInt8.ofNat b).toNat
    rw [UInt8.toNat_ofNat_of_lt' (show a < 256 by omega),
      UInt8.toNat_ofNat_of_lt' (show b < 256 by omega)]
    exact hlt
  depth e he := by
    obtain ⟨i, -, rfl⟩ := List.mem_map.mp he
    rfl

theorem ReadTo.after (h : ReadTo depth key) (hdepth : depth < 65535) (u : CodeUnit) :
    (after paths key u).ReadTo (depth + 1) where
  sorted := by
    rw [PathSubset.after, List.pairwise_map]
    exact h.sorted.filter _
  depth e he := by
    obtain ⟨e, hmem, rfl⟩ := List.mem_map.mp he
    have hread := h.depth e (List.mem_filter.mp hmem).1
    show (e.2 + 1).toNat = depth + 1
    rw [UInt16.toNat_add, hread]
    show (depth + 1) % 65536 = depth + 1
    omega

theorem readTo_of_reaches (hfew : paths.size ≤ 254)
    (h : (powerset paths).Reaches [initial paths] depth key) (hdepth : depth ≤ 65535) :
    key.ReadTo depth := by
  induction h with
  | start hkey =>
    obtain rfl := List.mem_singleton.mp hkey
    exact readTo_initial hfew
  | read _ u _ ih => exact (ih (by omega)).after (by omega) u

theorem choose?_foldl (hfew : paths.size ≤ 254) {add : ResultIds → UInt8 × UInt16 → ResultIds}
    (hadd : ∀ ids e, add ids e = (complete? paths e).elim ids fun p => ids.add e.1 p.anchored)
    (atStart : Bool) {r : ResultIds} (hsorted : key.Pairwise fun a b => a.1 < b.1)
    (hbelow : ∀ e ∈ key, r.Below e.1) :
    (key.foldl add r).choose? atStart = (r.choose? atStart).or ((key.find? fun e =>
      (complete? paths e).any fun p => !p.anchored || atStart).map Prod.fst) := by
  induction key generalizing r with
  | nil => simp
  | cons e rest ih =>
    obtain ⟨hlt, hsorted⟩ := List.pairwise_cons.mp hsorted
    have he := hbelow e (by simp)
    rw [List.foldl_cons, hadd]
    cases hp : complete? paths e with
    | none =>
      rw [List.find?_cons_of_neg (by simp [hp])]
      exact ih hsorted fun a ha => hbelow a (by simp [ha])
    | some p =>
      have hid : e.1 ≠ noResult := by
        obtain ⟨hpath, -⟩ := Option.filter_eq_some_iff.mp hp
        obtain ⟨hsize, -⟩ := Array.getElem?_eq_some_iff.mp hpath
        intro heq
        rw [heq] at hsize
        have : (255 : Nat) < paths.size := hsize
        omega
      rw [Option.elim_some, ih hsorted fun a ha => he.add hid (hlt a ha) p.anchored,
        ResultIds.choose?_add he hid, Option.or_assoc]
      congr 1
      cases hcounts : !p.anchored || atStart with
      | true => rw [List.find?_cons_of_pos (by simp [hp, hcounts])]; rfl
      | false => rw [List.find?_cons_of_neg (by simp [hp, hcounts])]; rfl

/-- The smallest id is reported among those of the complete paths, of which the anchored ones only
count at the start of the input. -/
theorem choose?_resultIds (hfew : paths.size ≤ 254) (h : ReadTo depth key) (atStart : Bool) :
    (resultIds paths key).choose? atStart =
      (key.find? fun e =>
        (complete? paths e).any fun p => !p.anchored || atStart).map Prod.fst := by
  rw [resultIds]
  exact choose?_foldl hfew (fun _ e => by cases complete? paths e <;> rfl) atStart h.sorted
    fun e _ => ResultIds.below_empty e.1

/-- What is left of the path of an entry fits between two positions. -/
def fitsBetween (paths : Array Path) (text : Text) (cursor i : Nat) (e : UInt8 × UInt16) : Bool :=
  (path? paths e).any fun p =>
    p.length == e.2.toNat + (cursor - i) && text.matchesAt i (p.sets.drop e.2.toNat).reverse &&
      (!p.anchored || i == 0)

/-- The first path of a subset whose rest fits between two positions. -/
def ends (paths : Array Path) (text : Text) (key : PathSubset) (cursor i : Nat) : Option UInt8 :=
  (key.find? (fitsBetween paths text cursor i)).map Prod.fst

theorem ends_self (hfew : paths.size ≤ 254) (h : ReadTo depth key) (cursor : Nat) :
    ends paths text key cursor cursor = (resultIds paths key).choose? (cursor == 0) := by
  rw [choose?_resultIds hfew h, ends]
  congr 2
  funext e
  rw [fitsBetween, complete?]
  cases path? paths e with
  | none => rfl
  | some p =>
    by_cases hlength : p.length = e.2.toNat
    · have hdrop : p.sets.drop p.length = [] := List.drop_length
      simp [← hlength, hdrop, Text.matchesAt]
    · simp [hlength]

/-- An entry ends where it does after the unit in front of the position, if it reads this unit. -/
theorem fitsBetween_succ {e : UInt8 × UInt16} (he : e.2.toNat < 65535) {u : CodeUnit}
    (hu : text[cursor]? = some u) (hi : i ≤ cursor) :
    fitsBetween paths text (cursor + 1) i e =
      ((set? paths e).any (·.contains u) && fitsBetween paths text cursor i (e.1, e.2 + 1)) := by
  have hnext : (e.2 + 1).toNat = e.2.toNat + 1 := by
    rw [UInt16.toNat_add]
    show (e.2.toNat + 1) % 65536 = e.2.toNat + 1
    omega
  have hpath : path? paths (e.1, e.2 + 1) = path? paths e := rfl
  rw [fitsBetween, fitsBetween, set?, hpath, hnext]
  cases path? paths e with
  | none => rfl
  | some p =>
    simp only [Option.any_some, Option.bind_some]
    rw [show e.2.toNat + (cursor + 1 - i) = e.2.toNat + 1 + (cursor - i) by omega]
    by_cases hlength : p.length = e.2.toNat + 1 + (cursor - i)
    · have hlt : e.2.toNat < p.sets.length := by
        have : p.sets.length = e.2.toNat + 1 + (cursor - i) := hlength
        omega
      have hend : i + (p.sets.drop (e.2.toNat + 1)).length = cursor := by
        have : p.sets.length = e.2.toNat + 1 + (cursor - i) := hlength
        rw [List.length_drop]
        omega
      rw [List.drop_eq_getElem_cons hlt, List.reverse_cons, Text.matchesAt_append,
        List.length_reverse, hend, List.getElem?_eq_getElem hlt]
      simp only [Text.matchesAt, hu, Option.any_some, Bool.and_true]
      cases (p.sets[e.2.toNat]).contains u <;> simp
    · have hne : (p.length == e.2.toNat + 1 + (cursor - i)) = false := by simpa using hlength
      simp [hne]

theorem ends_succ (h : ReadTo depth key) (hdepth : depth < 65535) {u : CodeUnit}
    (hu : text[cursor]? = some u) (hi : i ≤ cursor) :
    ends paths text key (cursor + 1) i = ends paths text (after paths key u) cursor i := by
  have hcongr : key.find? (fitsBetween paths text (cursor + 1) i) =
      key.find? fun e => (set? paths e).any (·.contains u) &&
        fitsBetween paths text cursor i (e.1, e.2 + 1) := by
    refine List.find?_congr fun e he => fitsBetween_succ ?_ hu hi
    rw [h.depth e he]
    exact hdepth
  rw [ends, ends, after, hcongr, List.find?_map, List.find?_filter, Option.map_map]
  simp only [Function.comp_def, Bool.decide_and, Bool.decide_eq_true]

theorem respects (paths : Array Path) : (powerset paths).Respects := by
  intro key c c' h
  show after paths key c = after paths key c'
  rw [after, after]
  congr 1
  refine List.filter_congr fun e he => ?_
  cases hs : set? paths e with
  | none => rfl
  | some set => exact h set (List.mem_filterMap.mpr ⟨e, he, hs⟩)

end PathSubset

end UnitRegex
