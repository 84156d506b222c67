import UnitRegex.Proofs.Matching.Loops

/-!
What a part of a pattern leaves alone. It only moves in its direction, and it reads something if it
cannot match empty. Without back-references it neither looks at captures nor touches those of other
groups, so a group may note its start when it is entered.
-/

namespace UnitRegex

namespace MatchState

variable {text : Text} {d : Direction}

theorem cursor_clear (x : MatchState) (span : Option (Nat × Nat)) :
    (x.clear span).cursor = x.cursor := by
  cases span <;> rfl

theorem cursor_recordAny (x : MatchState) (capture : Option Nat) (origin : Nat) :
    (x.recordAny d capture origin).cursor = x.cursor := by
  cases capture <;> cases d <;> rfl

end MatchState

namespace Behavior

variable {text : Text} {d : Direction} {f g : Behavior}

/-- A behavior that does not move back. -/
def Advances (text : Text) (d : Direction) (f : Behavior) : Prop :=
  ∀ x, ∀ y ∈ f x, text.left d y.cursor ≤ text.left d x.cursor

theorem Consumes.advances (h : f.Consumes text d) : f.Advances text d :=
  fun x y hy => Nat.le_of_lt (h x y hy)

theorem Advances.andThen (hf : f.Advances text d) (hg : g.Advances text d) :
    (f.andThen g).Advances text d := by
  intro x z hz
  obtain ⟨y, hy, hz⟩ := List.mem_flatMap.mp hz
  exact Nat.le_trans (hg y z hz) (hf x y hy)

theorem Consumes.andThen_left (hf : f.Consumes text d) (hg : g.Advances text d) :
    (f.andThen g).Consumes text d := by
  intro x z hz
  obtain ⟨y, hy, hz⟩ := List.mem_flatMap.mp hz
  exact Nat.lt_of_le_of_lt (hg y z hz) (hf x y hy)

theorem Consumes.andThen_right (hf : f.Advances text d) (hg : g.Consumes text d) :
    (f.andThen g).Consumes text d := by
  intro x z hz
  obtain ⟨y, hy, hz⟩ := List.mem_flatMap.mp hz
  exact Nat.lt_of_lt_of_le (hg y z hz) (hf x y hy)

theorem Advances.pass (hf : f.Advances text d) (capture : Option Nat)
    (span : Option (Nat × Nat)) : (Behavior.pass d capture span f).Advances text d := by
  intro x z hz
  obtain ⟨y, hy, rfl⟩ := List.mem_map.mp hz
  have hle := hf _ y hy
  rw [MatchState.cursor_clear] at hle
  rwa [MatchState.cursor_recordAny]

theorem Consumes.pass (hf : f.Consumes text d) (capture : Option Nat)
    (span : Option (Nat × Nat)) : (Behavior.pass d capture span f).Consumes text d := by
  intro x z hz
  obtain ⟨y, hy, rfl⟩ := List.mem_map.mp hz
  have hlt := hf _ y hy
  rw [MatchState.cursor_clear] at hlt
  rwa [MatchState.cursor_recordAny]

theorem left_le_of_mem_repeated (hf : f.Advances text d) (q : Quantifier) (count : Nat)
    (x z : MatchState) (hz : z ∈ Behavior.repeated text d q f count x) :
    text.left d z.cursor ≤ text.left d x.cursor := by
  have again : z ∈ ((f x).flatMap fun y =>
      if q.min ≤ count ∧ text.left d x.cursor ≤ text.left d y.cursor then []
      else Behavior.repeated text d q f (count + 1) y) →
      text.left d z.cursor ≤ text.left d x.cursor := by
    intro hz
    obtain ⟨y, hy, hz⟩ := List.mem_flatMap.mp hz
    have hle := hf x y hy
    split at hz
    · simp at hz
    · exact Nat.le_trans (left_le_of_mem_repeated hf q (count + 1) y z hz) hle
  rw [Behavior.repeated] at hz
  split at hz
  · exact again hz
  · split at hz
    · obtain rfl := List.mem_singleton.mp hz
      exact Nat.le_refl _
    · split at hz
      · rcases List.mem_append.mp hz with hz | hz
        · exact again hz
        · obtain rfl := List.mem_singleton.mp hz
          exact Nat.le_refl _
      · rcases List.mem_cons.mp hz with rfl | hz
        · exact Nat.le_refl _
        · exact again hz
termination_by (q.min - count, text.left d x.cursor)
decreasing_by
  rw [Prod.lex_def]
  omega

theorem Advances.repeated (hf : f.Advances text d) (q : Quantifier) (count : Nat) :
    Behavior.Advances text d (Behavior.repeated text d q f count) :=
  left_le_of_mem_repeated hf q count

/-- A loop that has to be passed at least once reads what its body reads. -/
theorem Consumes.repeated (hf : f.Consumes text d) {q : Quantifier} (hq : q.min ≠ 0) :
    Behavior.Consumes text d (Behavior.repeated text d q f 0) := by
  rw [repeated_of_lt_min (by omega)]
  exact hf.andThen_left (hf.advances.repeated q 1)

theorem consumes_unit (set : CharSet) : (Behavior.unit text d set).Consumes text d := by
  intro x y hy
  unfold Behavior.unit at hy
  split at hy
  · rename_i c cursor hread
    split at hy
    · obtain rfl := List.mem_singleton.mp hy
      have hread : text.read x.cursor d = some (c, cursor) := hread
      cases d with
      | forward =>
        simp only [Text.read] at hread
        obtain ⟨_, hget, he⟩ := Option.map_eq_some_iff.mp hread
        obtain ⟨hlt, -⟩ := Array.getElem?_eq_some_iff.mp hget
        obtain ⟨-, rfl⟩ := Prod.mk.inj he
        simp only [Text.left, MatchState.moveTo]
        omega
      | backward =>
        simp only [Text.read] at hread
        split at hread
        · simp at hread
        · obtain ⟨_, -, he⟩ := Option.map_eq_some_iff.mp hread
          obtain ⟨-, rfl⟩ := Prod.mk.inj he
          simp only [Text.left, MatchState.moveTo]
          omega
    · simp at hy
  · simp at hy

theorem advances_check (p : Nat → Bool) : (Behavior.check p).Advances text d := by
  intro x y hy
  unfold Behavior.check at hy
  split at hy
  · obtain rfl := List.mem_singleton.mp hy
    exact Nat.le_refl _
  · simp at hy

theorem advances_look (negated : Bool) (f : Behavior) :
    (Behavior.look negated f).Advances text d := by
  intro x y hy
  unfold Behavior.look at hy
  split at hy
  · obtain rfl := List.mem_singleton.mp hy
    exact Nat.le_refl _
  · obtain rfl := List.mem_singleton.mp hy
    exact Nat.le_refl _
  · simp at hy

end Behavior

mutual

theorem Term.outcomes_advance (flags : Flags) (text : Text) (d : Direction) (t : Term) :
    (t.outcomes flags text d).Advances text d := by
  match t with
  | .unit set => exact (Behavior.consumes_unit set).advances
  | .anchor kind =>
    exact Behavior.advances_check fun cursor => kind.holds flags.multiline text cursor
  | .backReference group =>
    intro x y hy
    obtain ⟨cursor, hcursor, rfl⟩ := Option.map_eq_some_iff.mp (Option.mem_toList.mp hy)
    exact (Text.moves_of_readGroup hcursor).left_le
  | .look behind negated body => exact Behavior.advances_look negated _
  | .group capture none body => exact (body.outcomes_advance flags text d).pass capture none
  | .group capture (some q) body =>
    exact ((body.outcomes_advance flags text d).pass capture _).repeated q 0

theorem Branch.outcomes_advance (flags : Flags) (text : Text) (d : Direction) (b : Branch) :
    (b.outcomes flags text d).Advances text d := by
  match b with
  | .nil =>
    intro x y hy
    obtain rfl := List.mem_singleton.mp hy
    exact Nat.le_refl _
  | .cons t rest =>
    have ht := t.outcomes_advance flags text d
    have hrest := rest.outcomes_advance flags text d
    cases d with
    | forward => exact ht.andThen hrest
    | backward => exact hrest.andThen ht

theorem Choice.outcomes_advance (flags : Flags) (text : Text) (d : Direction) (c : Choice) :
    (c.outcomes flags text d).Advances text d := by
  match c with
  | .one b => exact b.outcomes_advance flags text d
  | .more b rest =>
    intro x y hy
    rcases List.mem_append.mp hy with hy | hy
    · exact b.outcomes_advance flags text d x y hy
    · exact rest.outcomes_advance flags text d x y hy

end

mutual

/-- What cannot match empty reads something. -/
theorem Term.outcomes_consume (flags : Flags) (text : Text) (d : Direction) (t : Term)
    (h : t.nullable = false) : (t.outcomes flags text d).Consumes text d := by
  match t with
  | .unit set => exact Behavior.consumes_unit set
  | .group capture none body =>
    exact (body.outcomes_consume flags text d (by simpa [Term.nullable] using h)).pass capture none
  | .group capture (some q) body =>
    obtain ⟨hq, hbody⟩ : q.min ≠ 0 ∧ body.nullable = false := by
      simpa [Term.nullable] using h
    exact ((body.outcomes_consume flags text d hbody).pass capture _).repeated hq
  | .anchor _ | .look _ _ _ | .backReference _ => simp [Term.nullable] at h

theorem Branch.outcomes_consume (flags : Flags) (text : Text) (d : Direction) (b : Branch)
    (h : b.nullable = false) : (b.outcomes flags text d).Consumes text d := by
  match b with
  | .nil => simp [Branch.nullable] at h
  | .cons t rest =>
    have ht := t.outcomes_advance flags text d
    have hrest := rest.outcomes_advance flags text d
    by_cases hnull : t.nullable = false
    · have ht' := t.outcomes_consume flags text d hnull
      cases d with
      | forward => exact ht'.andThen_left hrest
      | backward => exact .andThen_right hrest ht'
    · have hrest' := rest.outcomes_consume flags text d (by
        simpa [Branch.nullable, hnull] using h)
      cases d with
      | forward => exact .andThen_right ht hrest'
      | backward => exact hrest'.andThen_left ht

theorem Choice.outcomes_consume (flags : Flags) (text : Text) (d : Direction) (c : Choice)
    (h : c.nullable = false) : (c.outcomes flags text d).Consumes text d := by
  match c with
  | .one b => exact b.outcomes_consume flags text d h
  | .more b rest =>
    obtain ⟨hb, hrest⟩ := Bool.or_eq_false_iff.mp h
    intro x y hy
    rcases List.mem_append.mp hy with hy | hy
    · exact b.outcomes_consume flags text d hb x y hy
    · exact rest.outcomes_consume flags text d hrest x y hy

end

namespace MatchState

/-- Sets one capture slot. -/
def setSlot (x : MatchState) (slot : Nat) (value : Int) : MatchState :=
  { x with slots := x.slots.setIfInBounds slot value }

end MatchState

/-- A slot that belongs to no group of a range. -/
def SlotOutside (slot : Nat) : Option (Nat × Nat) → Prop
  | none => True
  | some (lo, hi) => slot < 2 * lo ∨ 2 * hi ≤ slot

theorem SlotOutside.of_spanHull {slot : Nat} {a b : Option (Nat × Nat)}
    (h : SlotOutside slot (spanHull a b)) : SlotOutside slot a ∧ SlotOutside slot b := by
  match a, b with
  | none, b => exact ⟨trivial, h⟩
  | some a, none => exact ⟨h, trivial⟩
  | some (lo, hi), some (lo', hi') =>
    simp only [SlotOutside, spanHull] at h ⊢
    omega

theorem MatchState.clear_setSlot {slot : Nat} {span : Option (Nat × Nat)}
    (h : SlotOutside slot span) (x : MatchState) (value : Int) :
    (x.setSlot slot value).clear span = (x.clear span).setSlot slot value := by
  match span with
  | none => rfl
  | some (lo, hi) =>
    simp only [SlotOutside] at h
    simp only [MatchState.clear, MatchState.setSlot, Slots.unsetGroups, MatchState.mk.injEq,
      true_and]
    refine Array.ext (by simp) fun i hi₁ hi₂ => ?_
    have hi : i < x.slots.size := by simpa using hi₁
    rw [Array.getElem_mapIdx, Array.getElem_setIfInBounds hi,
      Array.getElem_setIfInBounds (by simpa using hi), Array.getElem_mapIdx]
    by_cases hslot : slot = i
    · rw [if_pos hslot, if_pos hslot, if_neg (by omega)]
    · rw [if_neg hslot, if_neg hslot]

theorem MatchState.recordAny_setSlot {d : Direction} {slot : Nat} {capture : Option Nat}
    (h : ∀ g, capture = some g → SlotOutside slot (some (g, g + 1))) (x : MatchState)
    (value : Int) (origin : Nat) :
    (x.setSlot slot value).recordAny d capture origin =
      (x.recordAny d capture origin).setSlot slot value := by
  cases capture with
  | none => rfl
  | some g =>
    have hslot := h g rfl
    simp only [SlotOutside] at hslot
    have hcomm : ∀ v w : Int,
        ((x.slots.setIfInBounds slot value).setIfInBounds (2 * g) v).setIfInBounds (2 * g + 1) w =
        ((x.slots.setIfInBounds (2 * g) v).setIfInBounds (2 * g + 1) w).setIfInBounds slot
          value := by
      intro v w
      rw [Array.setIfInBounds_comm value v (by omega),
        Array.setIfInBounds_comm value w (by omega)]
    cases d <;>
      simp only [recordAny, record, setSlot, Slots.setStart, Slots.setStop, hcomm]

namespace Behavior

variable {text : Text} {d : Direction} {slot : Nat} {f g : Behavior}

/-- A behavior that neither looks at a slot nor changes it. -/
def Ignores (slot : Nat) (f : Behavior) : Prop :=
  ∀ x value, f (x.setSlot slot value) = (f x).map (·.setSlot slot value)

theorem Ignores.andThen (hf : f.Ignores slot) (hg : g.Ignores slot) :
    (f.andThen g).Ignores slot := by
  intro x value
  have hg' : (fun y => g (y.setSlot slot value)) = fun y => (g y).map (·.setSlot slot value) :=
    funext fun y => hg y value
  rw [Behavior.andThen, Behavior.andThen, hf x value, List.flatMap_map, List.map_flatMap, hg']

theorem Ignores.pass (hf : f.Ignores slot) {capture : Option Nat} {span : Option (Nat × Nat)}
    (hspan : SlotOutside slot span)
    (hcapture : ∀ g, capture = some g → SlotOutside slot (some (g, g + 1))) :
    (Behavior.pass d capture span f).Ignores slot := by
  intro x value
  have hcursor : (x.setSlot slot value).cursor = x.cursor := rfl
  rw [Behavior.pass, Behavior.pass, MatchState.clear_setSlot hspan, hf, List.map_map,
    List.map_map, hcursor]
  refine List.map_congr_left fun y _ => ?_
  exact MatchState.recordAny_setSlot hcapture y value x.cursor

theorem repeated_setSlot (hf : f.Ignores slot) (q : Quantifier) (count : Nat) (x : MatchState)
    (value : Int) : Behavior.repeated text d q f count (x.setSlot slot value) =
      (Behavior.repeated text d q f count x).map (·.setSlot slot value) := by
  have hcursor : ∀ y : MatchState, (y.setSlot slot value).cursor = y.cursor := fun _ => rfl
  have again : ((f (x.setSlot slot value)).flatMap fun y =>
      if q.min ≤ count ∧ text.left d x.cursor ≤ text.left d y.cursor then []
      else Behavior.repeated text d q f (count + 1) y) =
      ((f x).flatMap fun y =>
        if q.min ≤ count ∧ text.left d x.cursor ≤ text.left d y.cursor then []
        else Behavior.repeated text d q f (count + 1) y).map (·.setSlot slot value) := by
    rw [hf x value, List.flatMap_map, List.map_flatMap]
    refine List.flatMap_congr fun y _ => ?_
    rw [hcursor]
    split
    · rfl
    · exact repeated_setSlot hf q (count + 1) y value
  rw [Behavior.repeated, Behavior.repeated, hcursor]
  simp only [again]
  split
  · rfl
  · split
    · rfl
    · split
      · rw [List.map_append]
        rfl
      · rfl
termination_by (q.min - count, text.left d x.cursor)
decreasing_by
  rw [Prod.lex_def]
  omega

theorem Ignores.repeated (hf : f.Ignores slot) (q : Quantifier) (count : Nat) :
    Behavior.Ignores slot (Behavior.repeated text d q f count) :=
  repeated_setSlot hf q count

end Behavior

mutual

/-- Without back-references a term ignores the slots of groups that it does not hold. -/
theorem Term.outcomes_ignore (flags : Flags) (text : Text) (d : Direction) (t : Term)
    {slot : Nat} (hspan : SlotOutside slot t.groupSpan) (href : t.hasBackReference = false) :
    (t.outcomes flags text d).Ignores slot := by
  match t with
  | .unit set =>
    intro x value
    simp only [Term.outcomes, Behavior.unit, MatchState.setSlot]
    cases text.read x.cursor d with
    | none => rfl
    | some next =>
      by_cases hset : set.contains next.1 <;> simp [hset, MatchState.moveTo]
  | .anchor kind =>
    intro x value
    simp only [Term.outcomes, Behavior.check, MatchState.setSlot]
    by_cases hholds : kind.holds flags.multiline text x.cursor <;> simp [hholds]
  | .backReference group => simp [Term.hasBackReference] at href
  | .look behind negated body =>
    intro x value
    have hbody := body.outcomes_ignore flags text (.ofLook behind) hspan href x value
    simp only [Term.outcomes, Behavior.look, hbody, List.head?_map]
    cases ((body.outcomes flags text (.ofLook behind)) x).head? <;> cases negated <;> rfl
  | .group capture none body =>
    have hparts : SlotOutside slot body.groupSpan ∧
        ∀ g, capture = some g → SlotOutside slot (some (g, g + 1)) := by
      cases capture with
      | none => exact ⟨hspan, by simp⟩
      | some g =>
        obtain ⟨hgroup, hbody⟩ := SlotOutside.of_spanHull hspan
        exact ⟨hbody, fun _ h => Option.some.inj h ▸ hgroup⟩
    exact (body.outcomes_ignore flags text d hparts.1 href).pass trivial hparts.2
  | .group capture (some q) body =>
    have hparts : SlotOutside slot body.groupSpan ∧
        ∀ g, capture = some g → SlotOutside slot (some (g, g + 1)) := by
      cases capture with
      | none => exact ⟨hspan, by simp⟩
      | some g =>
        obtain ⟨hgroup, hbody⟩ := SlotOutside.of_spanHull hspan
        exact ⟨hbody, fun _ h => Option.some.inj h ▸ hgroup⟩
    exact ((body.outcomes_ignore flags text d hparts.1 href).pass hspan hparts.2).repeated q 0

theorem Branch.outcomes_ignore (flags : Flags) (text : Text) (d : Direction) (b : Branch)
    {slot : Nat} (hspan : SlotOutside slot b.groupSpan) (href : b.hasBackReference = false) :
    (b.outcomes flags text d).Ignores slot := by
  match b with
  | .nil =>
    intro x value
    rfl
  | .cons t rest =>
    obtain ⟨htspan, hrspan⟩ := SlotOutside.of_spanHull hspan
    obtain ⟨htref, hrref⟩ := Bool.or_eq_false_iff.mp href
    have ht := t.outcomes_ignore flags text d htspan htref
    have hrest := rest.outcomes_ignore flags text d hrspan hrref
    cases d with
    | forward => exact ht.andThen hrest
    | backward => exact hrest.andThen ht

theorem Choice.outcomes_ignore (flags : Flags) (text : Text) (d : Direction) (c : Choice)
    {slot : Nat} (hspan : SlotOutside slot c.groupSpan) (href : c.hasBackReference = false) :
    (c.outcomes flags text d).Ignores slot := by
  match c with
  | .one b => exact b.outcomes_ignore flags text d hspan href
  | .more b rest =>
    obtain ⟨hbspan, hrspan⟩ := SlotOutside.of_spanHull hspan
    obtain ⟨hbref, hrref⟩ := Bool.or_eq_false_iff.mp href
    intro x value
    simp only [Choice.outcomes, Behavior.orElse, List.map_append,
      b.outcomes_ignore flags text d hbspan hbref x value,
      rest.outcomes_ignore flags text d hrspan hrref x value]

end

namespace Behavior

/-- Notes the position in a slot. -/
def save (slot : Nat) : Behavior := fun x => [x.setSlot slot x.cursor]

/-- A group may note its start when it is entered, if its body leaves that slot alone. -/
theorem pass_eq_save {g : Nat} {f : Behavior} (hf : f.Ignores (2 * g)) :
    pass .forward (some g) none f =
      (save (2 * g)).andThen (f.andThen (save (2 * g + 1))) := by
  funext x
  simp only [andThen, save, List.flatMap_singleton, hf x x.cursor, List.flatMap_map]
  rw [← List.map_eq_flatMap]
  rfl

end Behavior

end UnitRegex
