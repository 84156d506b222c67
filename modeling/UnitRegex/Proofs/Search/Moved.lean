import UnitRegex.Proofs.Paths.Accepting

/-!
Searches at positions around which two texts are alike. As far as the automaton looks behind, and
from there on, the units in front of one position are those in front of the other, and neither is at
the start of its text. Then every step at one position has its like at the other, and so what is
found from one is what is found from the other, moved by the distance.
-/

namespace UnitRegex

namespace Text

/-- Two positions behind at least one unit and at least `context` units, where the texts are the same
from `context` units in front of them on. -/
structure Alike (context : Nat) (x : Text) (i : Nat) (y : Text) (j : Nat) : Prop where
  context_le : max context 1 ≤ i
  le_size : i ≤ x.size
  context_le' : max context 1 ≤ j
  le_size' : j ≤ y.size
  drop_eq : x.toList.drop (i - context) = y.toList.drop (j - context)

/-- Where a position lies if it is moved from around `i` to around `j`. -/
def moved (i j cursor : Nat) : Nat := cursor - i + j

theorem moved_self (i j : Nat) : moved i j i = j := by
  simp [moved]

theorem moved_add {i c : Nat} (hi : i ≤ c) (j : Nat) : moved i j c + i = c + j := by
  unfold moved
  omega

theorem cast_moved {i c : Nat} (hi : i ≤ c) (j : Nat) :
    ((moved i j c : Nat) : Int) = c + (j - i) := by
  have hmoved := moved_add hi j
  omega

namespace Alike

variable {context : Nat} {x y : Text} {i j : Nat}

/-- As much of one text lies behind its position as of the other. -/
theorem size_add (h : x.Alike context i y j) : y.size + i = x.size + j := by
  have hlength := congrArg List.length h.drop_eq
  have hi := h.context_le
  have hj := h.context_le'
  have hx := h.le_size
  have hy := h.le_size'
  simp only [List.length_drop, Array.length_toList] at hlength
  omega

theorem size_eq (h : x.Alike context i y j) : y.size = moved i j x.size := by
  have hsize := h.size_add
  have hmoved := moved_add h.le_size j
  omega

theorem getElem?_eq (h : x.Alike context i y j) {c c' : Nat} (hc : c' + i = c + j)
    (hle : i ≤ c + context) : y[c']? = x[c]? := by
  have hi := h.context_le
  have hj := h.context_le'
  have hget := congrArg (fun l => l[c + context - i]?) h.drop_eq
  simp only [List.getElem?_drop, Array.getElem?_toList] at hget
  rw [show c = i - context + (c + context - i) by omega, hget]
  congr 1
  omega

theorem matchesAt_eq (h : x.Alike context i y j) (sets : List CharSet) {c c' : Nat}
    (hc : c' + i = c + j) (hle : i ≤ c + context) : y.matchesAt c' sets = x.matchesAt c sets := by
  induction sets generalizing c c' with
  | nil => rfl
  | cons set rest ih =>
    have hrest := ih (show c' + 1 + i = c + 1 + j by omega) (by omega)
    rw [matchesAt, matchesAt, h.getElem?_eq hc hle, hrest]

end Alike

end Text

/-- A thread at a position moved by a distance. -/
def Thread.movedBy (t : Thread) (distance : Int) : Thread :=
  { t with slots := t.slots.movedBy distance }

/-- A configuration moved from around `i` to around `j`. -/
def Configuration.moved (i j : Nat) (z : Configuration) : Configuration :=
  ⟨Text.moved i j z.cursor, z.thread.movedBy (j - i)⟩

namespace Nfa

variable {nfa : Nfa} {x y : Text} {i j : Nat}

/-- A guard holds at one position if it holds at the other: no look-behind sees the difference. -/
theorem holds_moved (hbehind : ∀ body ∈ nfa.lookBehinds, body.length ≤ nfa.context)
    (halike : x.Alike nfa.context i y j) {c : Nat} (hc : i ≤ c) (guard : Guard) :
    nfa.holds y (Text.moved i j c) guard = nfa.holds x c guard := by
  have hi := halike.context_le
  have hj := halike.context_le'
  have hmoved := Text.moved_add hc j
  cases guard with
  | caret =>
    have hx : ¬c = 0 := by omega
    have hy : ¬Text.moved i j c = 0 := by omega
    simp [holds, hx, hy]
  | dollar =>
    have hsize := halike.size_add
    have hiff : Text.moved i j c = y.size ↔ c = x.size := by omega
    rw [holds, holds, Bool.eq_iff_iff, beq_iff_eq, beq_iff_eq]
    exact hiff
  | behind body negated =>
    have hlength : (nfa.lookBehinds[body]?.getD []).length ≤ nfa.context := by
      cases hbody : nfa.lookBehinds[body]? with
      | none => exact Nat.zero_le _
      | some sets => exact hbehind sets (List.mem_of_getElem? hbody)
    simp only [holds]
    rw [halike.matchesAt_eq _ (c := c - (nfa.lookBehinds[body]?.getD []).length) (by omega)
      (by omega), decide_eq_true (by omega), decide_eq_true (by omega)]
  | ahead body negated =>
    simp only [holds]
    congr 2
    funext sets
    exact halike.matchesAt_eq sets hmoved (by omega)

/-- Without reading, a thread that is moved goes on as before. -/
theorem successors_movedBy (hbehind : ∀ body ∈ nfa.lookBehinds, body.length ≤ nfa.context)
    (halike : x.Alike nfa.context i y j) {c : Nat} (hc : i ≤ c) (t : Thread) :
    (t.movedBy (j - i)).successors nfa y (Text.moved i j c) =
      (t.successors nfa x c).map (·.movedBy (j - i)) := by
  have hstate : (t.movedBy (j - i)).state = t.state := rfl
  unfold Thread.successors
  rw [hstate]
  cases hs : nfa.state t.state with
  | unit => rfl
  | accept => rfl
  | split targets => simp [Thread.movedBy]
  | assert guard next =>
    simp only [holds_moved hbehind halike hc]
    split <;> rfl
  | save slot next =>
    simp only [Thread.movedBy, List.map_singleton, Slots.movedBy_setIfInBounds,
      Text.cast_moved hc]
  | unset lo hi next => simp only [Thread.movedBy, List.map_singleton, Slots.movedBy_unsetGroups]
  | reset counter next => rfl
  | increment counter limit next => rfl
  | loop counter min max greedy body exit =>
    simp only [List.map_map]
    rfl

/-- Every step of a configuration has its like where it is moved to. -/
theorem steps_moved (hd : nfa.direction = .forward)
    (hbehind : ∀ body ∈ nfa.lookBehinds, body.length ≤ nfa.context)
    (halike : x.Alike nfa.context i y j) {stop : Nat} (hstop : i ≤ stop) {z : Configuration}
    (hz : i ≤ z.cursor) :
    nfa.steps y (Text.moved i j stop) (z.moved i j) =
      (nfa.steps x stop z).map (·.moved i j) := by
  have hstate : (z.moved i j).state = z.state := rfl
  rcases (nfa.state z.state).unit_or with ⟨set, next, hs⟩ | hunit
  · have hcursor : (z.moved i j).cursor + i = z.cursor + j := Text.moved_add hz j
    have hend := Text.moved_add hstop j
    have hlt : (z.moved i j).cursor < Text.moved i j stop ↔ z.cursor < stop := by omega
    rw [steps_of_unit hs, steps_of_unit (hstate ▸ hs), hd]
    simp only [Text.read, halike.getElem?_eq hcursor (by omega), forall_const, hlt]
    cases x[z.cursor]? with
    | none => rfl
    | some u =>
      simp only [Option.map_some]
      split
      · have hmoved := Text.moved_add (show i ≤ z.cursor + 1 by omega) j
        have hnext : (z.moved i j).cursor + 1 = Text.moved i j (z.cursor + 1) := by omega
        rw [hnext]
        rfl
      · rfl
  · rw [steps_of_not_unit hunit, steps_of_not_unit (hstate ▸ hunit)]
    have hsuccessors := successors_movedBy hbehind halike hz z.thread
    simp only [Configuration.moved, hsuccessors, List.map_map]
    rfl

/-- What a search finds from one position it finds from the other. -/
theorem first_moved (h : nfa.Grounded) (hd : nfa.direction = .forward)
    (hbehind : ∀ body ∈ nfa.lookBehinds, body.length ≤ nfa.context)
    (halike : x.Alike nfa.context i y j) {stop : Nat} (hstop : i ≤ stop) {z : Configuration}
    (hz : i ≤ z.cursor) :
    nfa.first h y (Text.moved i j stop) (z.moved i j) =
      (nfa.first h x stop z).map (·.moved i j) := by
  induction z using (h.wellFounded x).induction with
  | _ z ih =>
    have hstate : (z.moved i j).state = z.state := rfl
    by_cases haccept : nfa.state z.state = .accept
    · rw [first_of_accept h haccept, first_of_accept h (hstate ▸ haccept)]
      rfl
    · rw [first_eq_findSome? h haccept, first_eq_findSome? h (hstate ▸ haccept),
        steps_moved hd hbehind halike hstop hz, List.findSome?_map, List.map_findSome?]
      apply findSome?_congr
      intro z' hz'
      exact ih z' (stepOrder_of_mem_steps hz') (Nat.le_trans hz (cursor_le_of_mem_steps hd hz'))

theorem attempts_moved {start stop : Nat} (hi : i ≤ start) (hle : start ≤ stop) (anchored : Bool) :
    attempts (Text.moved i j start) (Text.moved i j stop) anchored (Text.moved i j start) =
      (attempts start stop anchored start).map (Text.moved i j) := by
  cases anchored with
  | true => simp [attempts]
  | false =>
    have hstart := Text.moved_add hi j
    have hend := Text.moved_add (Nat.le_trans hi hle) j
    have hlength : Text.moved i j stop + 1 - Text.moved i j start = stop + 1 - start := by omega
    have hmap : (List.range' start (stop + 1 - start)).map (Text.moved i j) =
        ((List.range' start (stop + 1 - start)).map (· - i)).map (j + ·) := by
      rw [List.map_map]
      apply List.map_congr_left
      intro c _
      exact Nat.add_comm _ _
    simp only [attempts, Bool.false_eq_true, if_false]
    rw [hmap, List.map_sub_range' hi, List.map_add_range', hlength, Text.moved, Nat.add_comm j]

/-- A simulation finds the same captures at both positions, moved by the distance. -/
theorem findSlots_moved (h : nfa.Grounded) (hd : nfa.direction = .forward)
    (hbehind : ∀ body ∈ nfa.lookBehinds, body.length ≤ nfa.context)
    (halike : x.Alike nfa.context i y j) {start stop : Nat} (hi : i ≤ start) (hle : start ≤ stop)
    (hstop : stop ≤ x.size) (anchored : Bool) :
    nfa.findSlots y (Text.moved i j start) (Text.moved i j stop) anchored =
      (nfa.findSlots x start stop anchored).map (·.movedBy (j - i)) := by
  have hsize := halike.size_add
  have hfrom := Text.moved_add hi j
  have hend := Text.moved_add (Nat.le_trans hi hle) j
  have hstop' : Text.moved i j stop ≤ y.size := by omega
  rw [findSlots_eq h hd (by omega), findSlots_eq h hd (by omega), Nat.min_eq_left hstop,
    Nat.min_eq_left hstop', attempts_moved hi hle, List.findSome?_map, List.map_findSome?]
  apply findSome?_congr
  intro c hc
  have hinitial : (Configuration.mk c (Thread.initial nfa)).moved i j =
      ⟨Text.moved i j c, Thread.initial nfa⟩ := by
    simp only [Configuration.moved, Thread.movedBy, Thread.initial, Slots.movedBy_unset]
  have hfirst := first_moved h hd hbehind halike (Nat.le_trans hi hle)
    (z := ⟨c, Thread.initial nfa⟩) (Nat.le_trans hi ((mem_attempts hle).mp hc).1)
  rw [hinitial] at hfirst
  simp only [Function.comp_apply, threadSlots, hfirst, Option.map_map]
  rfl

end Nfa

end UnitRegex
