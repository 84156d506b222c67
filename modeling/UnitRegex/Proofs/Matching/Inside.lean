import UnitRegex.Proofs.Automaton.Steps
import UnitRegex.Proofs.Backtrack.Meaning
import UnitRegex.Proofs.Matching.Frame

/-!
Everything that a match knows lies in the text. A group is unset, or its bounds are in order,
whichever direction it was read in and whatever look-around or iteration it was recorded in.
-/

namespace UnitRegex

/-- Slots of a number of groups, each of which is unset or has its bounds in order and not behind
the end of a text. -/
structure Slots.Within (size groupCount : Nat) (s : Slots) : Prop where
  size_eq : s.size = 2 * groupCount
  bounds : ∀ g, (s.start g = -1 ∧ s.stop g = -1) ∨
    (0 ≤ s.start g ∧ s.start g ≤ s.stop g ∧ s.stop g ≤ size)

namespace Slots

variable {size groupCount : Nat} {s : Slots}

theorem within_unset (size groupCount : Nat) : (unset groupCount).Within size groupCount := by
  constructor
  · simp [unset]
  · intro g
    left
    constructor
    · by_cases h : 2 * g < 2 * groupCount <;> simp [unset, start, h]
    · by_cases h : 2 * g + 1 < 2 * groupCount <;> simp [unset, stop, h]

/-- A group may be set to a stretch of the text. -/
theorem Within.record (h : s.Within size groupCount) {lo hi : Nat} (hle : lo ≤ hi) (hhi : hi ≤ size)
    (group : Nat) : ((s.setStart group lo).setStop group hi).Within size groupCount := by
  have hsize := h.size_eq
  constructor
  · simpa [setStart, setStop] using hsize
  · intro g
    have hbounds := h.bounds g
    simp only [start, stop, setStart, setStop, Array.getElem?_setIfInBounds,
      Array.size_setIfInBounds] at hbounds ⊢
    by_cases hg : group = g
    · subst hg
      by_cases hin : group < groupCount
      · right
        have hstart : 2 * group < s.size := by omega
        have hstop : 2 * group + 1 < s.size := by omega
        simp [hstart, hstop, hle, hhi]
      · left
        have hstart : ¬2 * group < s.size := by omega
        have hstop : ¬2 * group + 1 < s.size := by omega
        simp [hstart, hstop]
    · have h1 : ¬2 * group + 1 = 2 * g := by omega
      have h2 : ¬2 * group = 2 * g := by omega
      have h3 : ¬2 * group + 1 = 2 * g + 1 := by omega
      have h4 : ¬2 * group = 2 * g + 1 := by omega
      simpa only [h1, h2, h3, h4, if_false] using hbounds

/-- Groups may be unset. -/
theorem Within.unsetGroups (h : s.Within size groupCount) (lo hi : Nat) :
    (s.unsetGroups lo hi).Within size groupCount := by
  constructor
  · simpa [Slots.unsetGroups] using h.size_eq
  · intro g
    have hbounds := h.bounds g
    simp only [start, stop, Slots.unsetGroups, Array.getElem?_mapIdx] at hbounds ⊢
    by_cases hg : lo ≤ g ∧ g < hi
    · left
      have hstart : 2 * lo ≤ 2 * g ∧ 2 * g < 2 * hi := by omega
      have hstop : 2 * lo ≤ 2 * g + 1 ∧ 2 * g + 1 < 2 * hi := by omega
      constructor
      · cases s[2 * g]? <;> simp [hstart]
      · cases s[2 * g + 1]? <;> simp [hstop]
    · have hstart : ¬(2 * lo ≤ 2 * g ∧ 2 * g < 2 * hi) := by omega
      have hstop : ¬(2 * lo ≤ 2 * g + 1 ∧ 2 * g + 1 < 2 * hi) := by omega
      simpa only [hstart, hstop, if_false, Option.map_id'] using hbounds

end Slots

theorem Text.le_size_of_readGroup {text : Text} {flags : Flags} {slots : Slots} {d : Direction}
    {group cursor next : Nat} (h : text.readGroup flags slots group cursor d = some next)
    (hcursor : cursor ≤ text.size) : next ≤ text.size := by
  simp only [readGroup] at h
  split at h
  · obtain rfl := Option.some.inj h
    exact hcursor
  · cases d with
    | forward =>
      simp only [Option.ite_none_right_eq_some, Option.some.injEq] at h
      obtain ⟨⟨hle, -⟩, rfl⟩ := h
      exact hle
    | backward =>
      simp only [Option.ite_none_right_eq_some, Option.some.injEq] at h
      obtain ⟨-, rfl⟩ := h
      omega

/-- The position and the captures of a match lie in the text. -/
structure MatchState.InText (text : Text) (groupCount : Nat) (x : MatchState) : Prop where
  cursor_le : x.cursor ≤ text.size
  slots : x.slots.Within text.size groupCount

namespace MatchState.InText

variable {text : Text} {groupCount : Nat} {d : Direction} {x y : MatchState}

theorem clear (h : x.InText text groupCount) (span : Option (Nat × Nat)) :
    (x.clear span).InText text groupCount := by
  cases span with
  | none => exact h
  | some range => exact ⟨h.cursor_le, h.slots.unsetGroups _ _⟩

/-- The ends of a group are the position behind it and the one in front of it, the smaller one
first. -/
theorem recordAny (h : x.InText text groupCount) (capture : Option Nat) {origin : Nat}
    (horigin : origin ≤ text.size) (hleft : text.left d x.cursor ≤ text.left d origin) :
    (x.recordAny d capture origin).InText text groupCount := by
  have hcursor := h.cursor_le
  cases capture with
  | none => exact h
  | some group =>
    cases d with
    | forward =>
      have hle : origin ≤ x.cursor := by
        simp only [Text.left] at hleft
        omega
      exact ⟨hcursor, h.slots.record hle hcursor group⟩
    | backward => exact ⟨hcursor, h.slots.record hleft horigin group⟩

end MatchState.InText

namespace Behavior

variable {text : Text} {groupCount : Nat} {d : Direction} {f g : Behavior}

/-- A behavior that leads from states in the text to such states. -/
def StaysInText (text : Text) (groupCount : Nat) (f : Behavior) : Prop :=
  ∀ x, x.InText text groupCount → ∀ y ∈ f x, y.InText text groupCount

theorem StaysInText.andThen (hf : f.StaysInText text groupCount)
    (hg : g.StaysInText text groupCount) : (f.andThen g).StaysInText text groupCount := by
  intro x hx z hz
  obtain ⟨y, hy, hz⟩ := List.mem_flatMap.mp hz
  exact hg y (hf x hx y hy) z hz

theorem StaysInText.orElse (hf : f.StaysInText text groupCount)
    (hg : g.StaysInText text groupCount) : (f.orElse g).StaysInText text groupCount := by
  intro x hx y hy
  rcases List.mem_append.mp hy with hy | hy
  · exact hf x hx y hy
  · exact hg x hx y hy

theorem staysInText_check (p : Nat → Bool) : (check p).StaysInText text groupCount := by
  intro x hx y hy
  unfold check at hy
  split at hy
  · obtain rfl := List.mem_singleton.mp hy
    exact hx
  · cases hy

theorem staysInText_unit (set : CharSet) :
    (Behavior.unit text d set).StaysInText text groupCount := by
  intro x hx y hy
  unfold Behavior.unit at hy
  split at hy
  · rename_i c next hread
    split at hy
    · obtain rfl := List.mem_singleton.mp hy
      exact ⟨Text.le_size_of_read hread, hx.slots⟩
    · cases hy
  · cases hy

/-- A look-around leaves its captures, but not its position. -/
theorem StaysInText.look (hf : f.StaysInText text groupCount) (negated : Bool) :
    (Behavior.look negated f).StaysInText text groupCount := by
  intro x hx y hy
  unfold Behavior.look at hy
  split at hy
  · rename_i z hz
    obtain rfl := List.mem_singleton.mp hy
    exact ⟨hx.cursor_le, (hf x hx z (List.mem_of_head? hz)).slots⟩
  · obtain rfl := List.mem_singleton.mp hy
    exact hx
  · cases hy

theorem StaysInText.pass (hf : f.StaysInText text groupCount) (hadvances : f.Advances text d)
    (capture : Option Nat) (span : Option (Nat × Nat)) :
    (Behavior.pass d capture span f).StaysInText text groupCount := by
  intro x hx y hy
  obtain ⟨z, hz, rfl⟩ := List.mem_map.mp hy
  have hleft := hadvances (x.clear span) z hz
  rw [MatchState.cursor_clear] at hleft
  exact (hf _ (hx.clear span) z hz).recordAny capture hx.cursor_le hleft

theorem inText_of_mem_repeated (hf : f.StaysInText text groupCount) (q : Quantifier) (count : Nat)
    {x y : MatchState} (hx : x.InText text groupCount) (hy : y ∈ repeated text d q f count x) :
    y.InText text groupCount := by
  have hagain : ∀ z ∈ (f x).flatMap fun y =>
      if q.min ≤ count ∧ text.left d x.cursor ≤ text.left d y.cursor then []
      else repeated text d q f (count + 1) y, z.InText text groupCount := by
    intro z hz
    obtain ⟨w, hw, hz⟩ := List.mem_flatMap.mp hz
    split at hz
    · cases hz
    · exact inText_of_mem_repeated hf q (count + 1) (hf x hx w hw) hz
  rw [repeated] at hy
  split at hy
  · exact hagain y hy
  · split at hy
    · obtain rfl := List.mem_singleton.mp hy
      exact hx
    · split at hy
      · rcases List.mem_append.mp hy with hy | hy
        · exact hagain y hy
        · obtain rfl := List.mem_singleton.mp hy
          exact hx
      · rcases List.mem_cons.mp hy with rfl | hy
        · exact hx
        · exact hagain y hy
termination_by (q.min - count, text.left d x.cursor)
decreasing_by
  rw [Prod.lex_def]
  omega

end Behavior

mutual

theorem Term.outcomes_stayInText (flags : Flags) (text : Text) (groupCount : Nat) (d : Direction)
    (t : Term) : (t.outcomes flags text d).StaysInText text groupCount := by
  match t with
  | .unit set => exact Behavior.staysInText_unit set
  | .anchor kind =>
    exact Behavior.staysInText_check fun cursor => kind.holds flags.multiline text cursor
  | .backReference group =>
    intro x hx y hy
    obtain ⟨cursor, hread, rfl⟩ := Option.map_eq_some_iff.mp (Option.mem_toList.mp hy)
    exact ⟨Text.le_size_of_readGroup hread hx.cursor_le, hx.slots⟩
  | .look behind negated body =>
    exact (body.outcomes_stayInText flags text groupCount (.ofLook behind)).look negated
  | .group capture none body =>
    exact (body.outcomes_stayInText flags text groupCount d).pass
      (body.outcomes_advance flags text d) capture none
  | .group capture (some q) body =>
    intro x hx y hy
    exact Behavior.inText_of_mem_repeated ((body.outcomes_stayInText flags text groupCount d).pass
      (body.outcomes_advance flags text d) capture _) q 0 hx hy

theorem Branch.outcomes_stayInText (flags : Flags) (text : Text) (groupCount : Nat) (d : Direction)
    (b : Branch) : (b.outcomes flags text d).StaysInText text groupCount := by
  match b with
  | .nil =>
    intro x hx y hy
    obtain rfl := List.mem_singleton.mp hy
    exact hx
  | .cons t rest =>
    have ht := t.outcomes_stayInText flags text groupCount d
    have hrest := rest.outcomes_stayInText flags text groupCount d
    cases d with
    | forward => exact ht.andThen hrest
    | backward => exact hrest.andThen ht

theorem Choice.outcomes_stayInText (flags : Flags) (text : Text) (groupCount : Nat) (d : Direction)
    (c : Choice) : (c.outcomes flags text d).StaysInText text groupCount := by
  match c with
  | .one b => exact b.outcomes_stayInText flags text groupCount d
  | .more b rest =>
    exact (b.outcomes_stayInText flags text groupCount d).orElse
      (rest.outcomes_stayInText flags text groupCount d)

end

/-- Every match of a pattern lies in the text, and begins where it is tried. -/
theorem Pattern.inText_of_mem_outcomes {p : Pattern} {text : Text} {i : Nat} (hi : i ≤ text.size)
    {y : MatchState} (hy : y ∈ p.outcomes text ⟨i, Slots.unset p.groupCount⟩) :
    i ≤ y.cursor ∧ y.InText text p.groupCount := by
  have hin := p.root.outcomes_stayInText p.flags text p.groupCount .forward _
    ⟨hi, Slots.within_unset text.size p.groupCount⟩ y hy
  have hleft := p.root.outcomes_advance p.flags text .forward _ y hy
  have hcursor := hin.cursor_le
  simp only [Text.left] at hleft
  exact ⟨by omega, hin⟩

end UnitRegex
