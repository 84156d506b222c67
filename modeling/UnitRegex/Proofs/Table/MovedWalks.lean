import UnitRegex.Proofs.Search.Moved
import UnitRegex.Proofs.Table.ForwardDelays

/-!
Walks at positions around which two texts are alike. A walk begins no further in front of the search
than the pattern looks behind, so it reads the same units in both texts. Its delays stay behind the
start of the search, so the ends that it reports are moved by the distance as well.
-/

namespace UnitRegex

variable {context : Nat} {x y : Text} {i j c c' : Nat}

namespace Text.Alike

theorem lt_size_iff (h : x.Alike context i y j) (hc : c' + i = c + j) : c' < y.size ↔ c < x.size := by
  have hsize := h.size_add
  omega

/-- A walk passes as many units of an interval in both texts. -/
theorem passForward_eq (h : x.Alike context i y j) (r : Interval) (hc : c' + i = c + j)
    (hle : i ≤ c + context) : y.passForward r c' + i = x.passForward r c + j := by
  induction hn : x.size - c using Nat.strongRecOn generalizing c c' with
  | _ n ih =>
    have hlt := h.lt_size_iff hc
    unfold passForward
    by_cases hx : c < x.size
    · have hy : c' < y.size := hlt.mpr hx
      have hunit : y[c'] = x[c] := by
        have hget := h.getElem?_eq hc hle
        rwa [Array.getElem?_eq_getElem hy, Array.getElem?_eq_getElem hx, Option.some.injEq] at hget
      rw [dif_pos hx, dif_pos hy, hunit]
      split
      · exact ih _ (by omega) (by omega) (by omega) rfl
      · exact hc
    · rw [dif_neg hx, dif_neg fun hy => hx (hlt.mp hy)]
      exact hc

end Text.Alike

namespace Dfa

/-- What a state reports at one position it reports at the other. -/
theorem endAt?_moved (h : x.Alike context i y j) (hc : c' + i = c + j) {a : Acceptance}
    (hfits : a.Fits x.size i c) :
    endAt? y a c' = (endAt? x a c).map (Text.moved i j) := by
  have hsize := h.size_add
  have hend : c' = y.size ↔ c = x.size := by omega
  unfold endAt?
  simp only [hend]
  split
  · rename_i hat
    have hdelay := hfits.atEdge hat.1 hat.2
    simp only [Option.map_some, Option.some.injEq, Text.moved]
    omega
  · split
    · rename_i hat
      have hdelay := hfits.anywhere hat
      simp only [Option.map_some, Option.some.injEq, Text.moved]
      omega
    · rfl

/-- Two walks from one state go together and find the same end, if none that is reported on the way
lies in front of the start of the search. -/
theorem endFrom_moved {d : Dfa} (h : x.Alike context i y j) {s : TableState} (hc : c' + i = c + j)
    (hle : i ≤ c + context)
    (hfits : ∀ s' cursor, d.Walks x s c s' cursor → s'.acceptance.Fits x.size i cursor)
    (last : Option Nat) :
    d.endFrom y s c' (last.map (Text.moved i j)) =
      (d.endFrom x s c last).map (Text.moved i j) := by
  induction hn : x.size - c using Nat.strongRecOn generalizing s c c' last with
  | _ n ih =>
    have hlt := h.lt_size_iff hc
    have hlast : (endAt? y s.acceptance c').or (last.map (Text.moved i j)) =
        ((endAt? x s.acceptance c).or last).map (Text.moved i j) := by
      rw [endAt?_moved h hc (hfits s c (.here s c)), Option.map_or]
    rw [endFrom, endFrom.eq_1 d x]
    simp only [hlast]
    by_cases hx : c < x.size
    · have hy : c' < y.size := hlt.mpr hx
      have hget := h.getElem?_eq hc hle
      rw [Array.getElem?_eq_getElem hy, Array.getElem?_eq_getElem hx, Option.some.injEq] at hget
      have hunit : x[c]? = some x[c] := by simp [hx]
      have hread : ∀ id, s.next x[c] = some id →
          d.endFrom y (d.state id) (c' + 1)
              (((endAt? x s.acceptance c).or last).map (Text.moved i j)) =
            (d.endFrom x (d.state id) (c + 1) ((endAt? x s.acceptance c).or last)).map
              (Text.moved i j) := by
        intro id hnext
        exact ih _ (by omega) (by omega) (by omega)
          (fun s' cursor hwalks => hfits s' cursor (.read hunit hnext hwalks)) _ rfl
      rw [dif_pos hx, dif_pos hy, hget]
      cases hloop : s.loop with
      | none =>
        simp only [Nat.lt_irrefl, if_false]
        cases hnext : s.next x[c] with
        | none => rfl
        | some id => exact hread id hnext
      | some r =>
        have hpass := h.passForward_eq r hc hle
        have hmoves : c' < y.passForward r c' ↔ c < x.passForward r c := by omega
        simp only [hmoves]
        split
        · rename_i hskip
          exact ih _ (by omega) hpass (by omega)
            (fun s' cursor hwalks => hfits s' cursor (.pass hloop hwalks)) _ rfl
        · cases hnext : s.next x[c] with
          | none => rfl
          | some id => exact hread id hnext
    · rw [dif_neg hx, dif_neg fun hy => hx (hlt.mp hy)]

end Dfa

/-- Where a search begins in its table depends on its offset only below the context. -/
theorem ForwardSubset.entryFor_eq_of_le (anchored : Bool) (hi : max context 1 ≤ i)
    (hj : max context 1 ≤ j) : entryFor context anchored j = entryFor context anchored i := by
  have hzero : ¬i = 0 := by omega
  have hzero' : ¬j = 0 := by omega
  have hmin : min i context = min j context := by omega
  rw [entryFor, entryFor, if_neg hzero, if_neg hzero', hmin]

/-- The forward table finds the same end at both positions. -/
theorem Pattern.Compiled.lastEnd?_moved {p : Pattern} {nfa : Nfa} (h : p.Compiled nfa)
    {maxStates : Nat} {dfa : Dfa} (htable : nfa.forwardTable maxStates = .ok dfa)
    (halike : x.Alike nfa.context i y j) :
    dfa.lastEnd? y (dfa.entry (ForwardSubset.entryFor nfa.context p.flags.sticky j))
        (j - min j nfa.context) =
      (dfa.lastEnd? x (dfa.entry (ForwardSubset.entryFor nfa.context p.flags.sticky i))
        (i - min i nfa.context)).map (Text.moved i j) := by
  have hi := halike.context_le
  have hj := halike.context_le'
  rw [ForwardSubset.entryFor_eq_of_le p.flags.sticky hi hj]
  apply Dfa.endFrom_moved halike (by omega) (by omega) _ none
  intro s cursor hwalks
  exact (h.delays_le htable halike.le_size hwalks).2

end UnitRegex
