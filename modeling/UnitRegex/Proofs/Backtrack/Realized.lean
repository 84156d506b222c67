import UnitRegex.Proofs.Backtrack.Layout
import UnitRegex.Proofs.Backtrack.Serves
import UnitRegex.Proofs.Pattern.Captures

/-!
The instructions of a pattern against its meaning. Wherever the layout of a term is placed, the
machine serves an attempt at the term in front of it if it serves what comes next behind it. Of the
registers that the term owns nothing is assumed, so each of them is written before it is read.
-/

namespace UnitRegex

/-! ### Pieces of a program -/

/-- Some instructions stand in an array from an index on. -/
def Op.Stand (ops : Array Op) (a : Nat) (piece : List Op) : Prop := piece <+: ops.toList.drop a

namespace Op.Stand

variable {ops : Array Op} {a : Nat} {op : Op} {piece rest : List Op}

theorem head (h : Op.Stand ops a (op :: piece)) : ops[a]? = some op := by
  obtain ⟨rest, h⟩ := h
  rw [← Array.getElem?_toList, ← Nat.add_zero a, ← List.getElem?_drop, ← h]
  rfl

theorem tail (h : Op.Stand ops a (op :: piece)) : Op.Stand ops (a + 1) piece := by
  obtain ⟨rest, h⟩ := h
  refine ⟨rest, ?_⟩
  rw [← List.tail_drop, ← h]
  rfl

theorem left (h : Op.Stand ops a (piece ++ rest)) : Op.Stand ops a piece :=
  (List.prefix_append piece rest).trans h

theorem right (h : Op.Stand ops a (piece ++ rest)) :
    Op.Stand ops (a + piece.length) rest := by
  obtain ⟨behind, h⟩ := h
  refine ⟨behind, ?_⟩
  rw [← List.drop_drop, ← h, List.append_assoc, List.drop_left]

end Op.Stand

/-! ### Registers of a piece -/

/-- A register that a piece may use, and that only runs of look-arounds use if `inner` holds. What
is free may hold anything in front of the piece. -/
structure RegisterScope.Grants (scope : RegisterScope) (free : Set Nat) (size r : Nat)
    (inner : Bool) : Prop where
  lt_size : r < size
  own : r ∈ scope.own
  free : r ∈ free
  inner_iff : r ∈ scope.inner ↔ inner = true

/-- The registers from `r` on are granted. -/
def RegisterScope.GrantsAll (scope : RegisterScope) (free : Set Nat) (size r : Nat)
    (inner : List Bool) : Prop :=
  ∀ i b, inner[i]? = some b → scope.Grants free size (r + i) b

namespace RegisterScope.GrantsAll

variable {scope : RegisterScope} {free : Set Nat} {size r : Nat} {b : Bool}
  {inner inner' : List Bool}

theorem head (h : scope.GrantsAll free size r (b :: inner)) : scope.Grants free size r b :=
  h 0 b rfl

theorem tail (h : scope.GrantsAll free size r (b :: inner)) :
    scope.GrantsAll free size (r + 1) inner := by
  intro i c hc
  have hgrants := h (i + 1) c hc
  rwa [Nat.add_comm i, ← Nat.add_assoc] at hgrants

theorem left (h : scope.GrantsAll free size r (inner ++ inner')) :
    scope.GrantsAll free size r inner := by
  intro i c hc
  obtain ⟨hi, -⟩ := List.getElem?_eq_some_iff.mp hc
  exact h i c ((List.getElem?_append_left hi).trans hc)

theorem right (h : scope.GrantsAll free size r (inner ++ inner')) :
    scope.GrantsAll free size (r + inner.length) inner' := by
  intro i c hc
  have hgrants := h (inner.length + i) c (by
    rw [List.getElem?_append_right (Nat.le_add_right _ _), Nat.add_sub_cancel_left]
    exact hc)
  rwa [← Nat.add_assoc] at hgrants

end RegisterScope.GrantsAll

/-- The registers that may hold anything in front of a piece: its own, and inner ones. -/
def RegisterScope.freeFrom (scope : RegisterScope) (r n : Nat) : Set Nat :=
  { i | i ∈ scope.inner ∨ r ≤ i ∧ i < r + n }

theorem RegisterScope.GrantsAll.freeFrom_subset {scope : RegisterScope} {free : Set Nat}
    {size r : Nat} {inner : List Bool} (h : scope.GrantsAll free size r inner) (hinner : scope.inner ⊆ free) :
    scope.freeFrom r inner.length ⊆ free := by
  rintro i (hi | ⟨hle, hlt⟩)
  · exact hinner hi
  · have hgrants := h (i - r) _ (List.getElem?_eq_getElem (by omega))
    rw [Nat.add_sub_cancel' hle] at hgrants
    exact hgrants.free

namespace Machine

/-- A layout that stands in a program and has its registers. -/
structure Placed (p : Machine) (f : Layout) (a r : Nat) (scope : RegisterScope) (free : Set Nat)
    (size : Nat) : Prop where
  stand : Op.Stand p.ops a (f.ops a r)
  grants : scope.GrantsAll free size r f.inner
  inner_subset : scope.inner ⊆ free

/-- The machine serves attempts at an instruction that go on from a position in a direction, with
registers that agree with given ones except for the free ones. -/
def Meets (p : Machine) (text : Text) (d : Direction) (scope : RegisterScope) (free : Set Nat)
    (registers : Array Nat) (origin pc : Nat) (k : Continuation) : Prop :=
  ∀ after x, AgreeOutside free registers after → text.Moves d origin x.cursor →
    x.slots.size = 2 * p.groupCount → p.Serves text scope pc after x (k x)

/-- Wherever a layout is placed, the machine tries an attempt there and then what stands behind. -/
structure Realizes (p : Machine) (text : Text) (d : Direction) (f : Layout) (attempt : Attempt) :
    Prop where
  meets : ∀ {a r scope free registers origin k}, p.Placed f a r scope free registers.size →
    p.Meets text d scope free registers origin (a + f.size) k →
    p.Meets text d scope free registers origin a fun x => attempt x k

variable {p : Machine} {text : Text} {d : Direction} {f g : Layout} {a r size : Nat}
  {scope : RegisterScope}
  {free : Set Nat} {registers : Array Nat}

/-- A part of a layout needs no other free registers than its own. -/
theorem Placed.of_grants {body : Layout}
    (hstand : Op.Stand p.ops a (body.ops a r)) (hgrants : scope.GrantsAll free size r body.inner) :
    p.Placed body a r scope (scope.freeFrom r body.registers) size where
  stand := hstand
  grants i b hb := by
    obtain ⟨hi, -⟩ := List.getElem?_eq_some_iff.mp hb
    exact { hgrants i b hb with free := .inr ⟨Nat.le_add_right r i, Nat.add_lt_add_left hi r⟩ }
  inner_subset _ hi := .inl hi

/-! ### Single instructions -/

theorem realizes_nil : p.Realizes text d .nil fun x k => k x := ⟨fun _ hk => hk⟩

/-- An instruction that only goes on to the next one. -/
theorem realizes_single {op : Op} {attempt : Attempt}
    (h : ∀ {scope pc registers x k}, p.ops[pc]? = some op → x.slots.size = 2 * p.groupCount →
      (∀ y, text.Moves d x.cursor y.cursor → y.slots.size = 2 * p.groupCount →
        p.Serves text scope (pc + 1) registers y (k y)) →
      p.Serves text scope pc registers x (attempt x k)) :
    p.Realizes text d (.single op) attempt := by
  constructor
  intro a r scope free registers origin k hplaced hk after x hafter hmoves hsize
  apply h hplaced.stand.head hsize
  intro y hy hysize
  exact hk after y hafter (hmoves.trans hy) hysize

theorem realizes_read (set : CharSet) : p.Realizes text d (.single (.read set d)) fun x k =>
    match text.read x.cursor d with
    | some (c, cursor) => if set.contains c then k (x.moveTo cursor) else none
    | none => none := by
  apply realizes_single
  intro scope pc registers x k hop hsize hk
  cases hread : text.read x.cursor d with
  | none => exact serves_of_fail hop (by simp [execute, hread])
  | some next =>
    by_cases hset : set.contains next.1
    · simp only [hset, if_true]
      have hnext := hk (x.moveTo next.2) (Text.moves_of_read hread) hsize
      exact serves_of_move hop (by simp only [execute, hread, hset, if_true]) hnext
    · simp only [hset]
      exact serves_of_fail hop (by simp [execute, hread, hset])

theorem realizes_anchor (kind : Anchor) : p.Realizes text d (.single (.anchor kind)) fun x k =>
    if kind.holds p.flags.multiline text x.cursor then k x else none := by
  apply realizes_single
  intro scope pc registers x k hop hsize hk
  by_cases hholds : kind.holds p.flags.multiline text x.cursor
  · simp only [hholds, if_true]
    have hnext := hk x (.inl rfl) hsize
    exact serves_of_move hop (by simp only [execute, hholds, if_true]) hnext
  · simp only [hholds]
    exact serves_of_fail hop (by simp [execute, hholds])

theorem realizes_backReference {group : Nat} (hgroup : group < p.groupCount) :
    p.Realizes text d (.single (.backReference group d)) fun x k =>
      match text.readGroup p.flags x.slots group x.cursor d with
      | some cursor => k (x.moveTo cursor)
      | none => none := by
  apply realizes_single
  intro scope pc registers x k hop hsize hk
  have hslots : 2 * group + 1 < x.slots.size := by omega
  cases hread : text.readGroup p.flags x.slots group x.cursor d with
  | none => exact serves_of_fail hop (by simp [execute, hslots, hread])
  | some cursor =>
    have hnext := hk (x.moveTo cursor) (Text.moves_of_readGroup hread) hsize
    exact serves_of_move hop (by simp [execute, hslots, hread]) hnext

/-! ### Slots -/

/-- Slots after a number of changes. -/
def Slots.changed (slots : Slots) (changes : List (Nat × Int)) : Slots :=
  changes.foldl (fun slots change => slots.setIfInBounds change.1 change.2) slots

/-- Slots that exist can be set one after the other. -/
theorem exists_setSlots (m : Memory) (pushed : List Job) (changes : List (Nat × Int))
    (h : ∀ change ∈ changes, change.1 < m.slots.size) :
    ∃ pushed', m.setSlots pushed changes =
      some (pushed', { m with slots := Slots.changed m.slots changes }) := by
  induction changes generalizing m pushed with
  | nil => exact ⟨pushed, rfl⟩
  | cons change changes ih =>
    have hlt : change.1 < m.slots.size := h change List.mem_cons_self
    obtain ⟨pushed', hset⟩ := ih (m.restoreSlot change.1 change.2)
      (.restoreSlot change.1 m.slots[change.1] :: pushed) (fun c hc => by
        simpa [Memory.restoreSlot] using h c (List.mem_cons_of_mem _ hc))
    refine ⟨pushed', ?_⟩
    rw [Memory.setSlots, Array.getElem?_eq_getElem hlt]
    exact hset

theorem getElem?_changed_range' (slots : Slots) (lo n i : Nat) :
    (Slots.changed slots ((List.range' lo n).map (·, -1)))[i]? =
      if lo ≤ i ∧ i < lo + n then slots[i]?.map fun _ => -1 else slots[i]? := by
  induction n generalizing lo slots with
  | zero => rw [if_neg (by omega)]; rfl
  | succ n ih =>
    have hrest := ih (slots.setIfInBounds lo (-1)) (lo + 1)
    rw [List.range'_succ]
    apply hrest.trans
    rw [Array.getElem?_setIfInBounds]
    by_cases hlo : lo = i
    · subst hlo
      by_cases hlt : lo < slots.size <;> simp [hlt]
    · rw [if_neg hlo]
      by_cases hi : lo ≤ i ∧ i < lo + (n + 1)
      · rw [if_pos hi, if_pos (by omega)]
      · rw [if_neg hi, if_neg (by omega)]

theorem changed_range' (slots : Slots) (lo hi : Nat) :
    Slots.changed slots ((List.range' (2 * lo) (2 * hi - 2 * lo)).map (·, -1)) =
      slots.unsetGroups lo hi := by
  apply Array.ext_getElem?
  intro i
  rw [getElem?_changed_range', Slots.unsetGroups, Array.getElem?_mapIdx]
  by_cases hi : 2 * lo ≤ i ∧ i < 2 * hi
  · rw [if_pos (by omega)]
    simp [hi]
  · rw [if_neg (by omega)]
    simp [hi]

theorem realizes_clear {span : Option (Nat × Nat)}
    (hspan : ∀ lo hi, span = some (lo, hi) → hi ≤ p.groupCount) :
    p.Realizes text d (.clear span) fun x k => k (x.clear span) := by
  cases span with
  | none => exact realizes_nil
  | some range =>
    obtain ⟨lo, hi⟩ := range
    apply realizes_single
    intro scope pc registers x k hop hsize hk
    have hle := hspan lo hi rfl
    have hrange : ∀ change ∈ (List.range' (2 * lo) (2 * hi - 2 * lo)).map (·, (-1 : Int)),
        change.1 < x.slots.size := by
      intro change hchange
      obtain ⟨slot, hslot, rfl⟩ := List.mem_map.mp hchange
      simp only [List.mem_range'_1] at hslot
      omega
    obtain ⟨pushed, hset⟩ := exists_setSlots ⟨registers, x.slots⟩ [] _ hrange
    rw [changed_range'] at hset
    have hnext := hk (x.clear (some (lo, hi))) (.inl rfl)
      (by simpa [MatchState.clear, Slots.unsetGroups] using hsize)
    exact serves_of_setSlots hop rfl hset hnext

/-! ### Groups -/

theorem realizes_capture {body : Attempt} {group : Nat} (hgroup : group < p.groupCount)
    (h : p.Realizes text d f body) :
    p.Realizes text d (.capture d group f) (.pass d (some group) none body) := by
  constructor
  intro a r scope free registers origin k hplaced hk after x hafter hmoves hsize
  have hown := hplaced.grants.head
  have hr : r < after.size := hafter.size ▸ hown.lt_size
  have hnext : p.Serves text scope (a + 1) (after.setIfInBounds r x.cursor) x
      (body x fun y => k (y.recordAny d (some group) x.cursor)) := by
    have hbody : p.Placed f (a + 1) (r + 1) scope (scope.freeFrom (r + 1) f.registers)
        (after.setIfInBounds r x.cursor).size := by
      rw [Array.size_setIfInBounds, hafter.size]
      exact .of_grants hplaced.stand.tail.left hplaced.grants.tail
    apply h.meets hbody ?_ _ x (.refl _ _) hmoves hsize
    intro final y hfinal hymoves hysize
    -- Neither the body nor the look-arounds in it have written the register of the group.
    have horigin : final[r]? = some x.cursor := by
      rw [hfinal.get r, Array.getElem?_setIfInBounds_self_of_lt hr]
      rintro (hinner | hblock)
      · cases hown.inner_iff.mp hinner
      · omega
    have hop : p.ops[a + 1 + f.size]? = some (.capture group r d) := by
      have hbehind := hplaced.stand.tail.right.head
      rwa [f.length_ops] at hbehind
    have hfree : AgreeOutside free registers final :=
      (hafter.trans (.set hown.free)).trans
        (hfinal.mono (hplaced.grants.tail.freeFrom_subset hplaced.inner_subset))
    have hpc : a + (f.capture d group).size = a + 1 + f.size + 1 := by
      simp only [Layout.capture]
      omega
    rw [hpc] at hk
    have hbehind := hk final (y.record d group x.cursor) hfree
    have hset (start stop : Nat) := exists_setSlots ⟨final, y.slots⟩ []
      [(2 * group, (start : Int)), (2 * group + 1, (stop : Int))] (by simp; omega)
    cases d with
    | forward =>
      obtain ⟨pushed, hset⟩ := hset x.cursor y.cursor
      exact serves_of_setSlots hop (by simp [execute, horigin]) hset
        (hbehind hymoves (by simpa [MatchState.record, Slots.setStart, Slots.setStop] using hysize))
    | backward =>
      obtain ⟨pushed, hset⟩ := hset y.cursor x.cursor
      exact serves_of_setSlots hop (by simp [execute, horigin]) hset
        (hbehind hymoves (by simpa [MatchState.record, Slots.setStart, Slots.setStop] using hysize))
  exact serves_of_setRegister hplaced.stand.head rfl hr hown.own hnext

theorem realizes_pass {body : Attempt} {capture : Option Nat}
    (hcapture : ∀ group, capture = some group → group < p.groupCount)
    (h : p.Realizes text d f body) :
    p.Realizes text d (.pass d capture f) (.pass d capture none body) := by
  cases capture with
  | none => exact h
  | some group => exact realizes_capture (hcapture group rfl) h

/-! ### Sequences, alternatives and look-arounds -/

theorem Realizes.append {first second : Attempt} (hf : p.Realizes text d f first)
    (hg : p.Realizes text d g second) :
    p.Realizes text d (f.append g) fun x k => first x fun y => second y k := by
  constructor
  intro a r scope free registers origin k hplaced hk
  have hfirst : p.Placed f a r scope free registers.size :=
    ⟨hplaced.stand.left, hplaced.grants.left, hplaced.inner_subset⟩
  have hsecond : p.Placed g (a + f.size) (r + f.registers) scope free registers.size := by
    have hstand := hplaced.stand.right
    rw [f.length_ops] at hstand
    exact ⟨hstand, hplaced.grants.right, hplaced.inner_subset⟩
  apply hf.meets hfirst
  apply hg.meets hsecond
  rwa [Nat.add_assoc]

theorem Realizes.either {first second : Attempt} (hf : p.Realizes text d f first)
    (hg : p.Realizes text d g second) :
    p.Realizes text d (f.either g) fun x k => (first x k).or (second x k) := by
  constructor
  intro a r scope free registers origin k hplaced hk after x hafter hmoves hsize
  have hjump : Op.Stand p.ops (a + 1 + f.size) (.jump (a + 1 + f.size + 1 + g.size) ::
      g.ops (a + 1 + f.size + 1) (r + f.registers)) := by
    have hstand := hplaced.stand.tail.right
    rwa [f.length_ops] at hstand
  have hfirst : p.Placed f (a + 1) r scope free registers.size :=
    ⟨hplaced.stand.tail.left, hplaced.grants.left, hplaced.inner_subset⟩
  have hsecond : p.Placed g (a + 1 + f.size + 1) (r + f.registers) scope free registers.size :=
    ⟨hjump.tail, hplaced.grants.right, hplaced.inner_subset⟩
  have hpc : a + (f.either g).size = a + 1 + f.size + 1 + g.size := by
    simp only [Layout.either]
    omega
  rw [hpc] at hk
  have hbehind : p.Meets text d scope free registers origin (a + 1 + f.size) k := by
    intro final y hfinal hymoves hysize
    exact serves_of_move hjump.head rfl (hk final y hfinal hymoves hysize)
  apply serves_of_split hplaced.stand.head rfl (hf.meets hfirst hbehind after x hafter hmoves hsize)
  intro final hfinal
  exact hg.meets hsecond hk final x (hafter.trans (hfinal.mono hplaced.inner_subset)) hmoves hsize

theorem Realizes.look {e : Direction} {body : Attempt} (h : p.Realizes text e f body)
    (negated : Bool) : p.Realizes text d (f.look negated) fun x k =>
      match body x some, negated with
      | some y, false => k { x with slots := y.slots }
      | none, true => k x
      | _, _ => none := by
  constructor
  intro a r scope free registers origin k hplaced hk after x hafter hmoves hsize
  -- The run of the body has the registers of the body for itself.
  let inside : RegisterScope :=
    { inner := { i | r ≤ i ∧ f.inner[i - r]? = some true }
      own := { i | r ≤ i ∧ i < r + f.registers }
      inner_subset := by
        rintro i ⟨hle, hi⟩
        obtain ⟨hlt, -⟩ := List.getElem?_eq_some_iff.mp hi
        exact ⟨hle, by simp only [Layout.registers]; omega⟩ }
  have hgrants (i : Nat) (hi : i < f.registers) : scope.Grants free registers.size (r + i) true :=
    hplaced.grants i true (by simp [Layout.look, hi])
  have hinside : inside.own ⊆ scope.inner := by
    rintro i ⟨hle, hlt⟩
    have hown := (hgrants (i - r) (by omega)).inner_iff.mpr rfl
    rwa [Nat.add_sub_cancel' hle] at hown
  have hbody : p.Placed f (a + 1) r inside inside.own after.size := by
    refine ⟨hplaced.stand.tail.left, ?_, inside.inner_subset⟩
    intro i b hb
    obtain ⟨hi, -⟩ := List.getElem?_eq_some_iff.mp hb
    have hown : r ≤ r + i ∧ r + i < r + f.registers := ⟨Nat.le_add_right r i, by
      simp only [Layout.registers]; omega⟩
    refine ⟨hafter.size ▸ (hgrants i hi).lt_size, hown, hown, ?_⟩
    simp [inside, hb]
  have hend : p.Meets text e inside inside.own after x.cursor (a + 1 + f.size) some := by
    intro final y _ _ _
    have hop := hplaced.stand.tail.right.head
    rw [f.length_ops] at hop
    exact serves_of_accept hop rfl
  have hpc : a + (f.look negated).size = a + 1 + f.size + 1 := by
    simp only [Layout.look]
    omega
  rw [hpc] at hk
  apply serves_of_look hplaced.stand.head hinside
    (h.meets hbody hend after x (.refl _ _) (.inl rfl) hsize)
  intro final y hfinal hcursor hysize
  exact hk final y (hafter.trans (hfinal.mono hplaced.inner_subset)) (hcursor ▸ hmoves)
    (hysize.trans hsize)

/-! ### Loops -/

/-- One iteration of a loop, from the mark to its end. The counter stands in the first register of
the loop and the position where the iteration began in the second. -/
theorem serves_iteration {body : Attempt} {q : Quantifier} {next : MatchState → Option MatchState}
    {count : Nat} {after : Array Nat} {x : MatchState} (h : p.Realizes text d f body)
    (hplaced : p.Placed (.loop q f) a r scope free registers.size)
    (hafter : AgreeOutside free registers after) (hcount : after[r]? = some count)
    (hsize : x.slots.size = 2 * p.groupCount)
    (hnext : ∀ final y, AgreeOutside free registers final → final[r]? = some (count + 1) →
      text.Moves d x.cursor y.cursor → y.slots.size = 2 * p.groupCount →
      ¬(q.min ≤ count ∧ text.left d x.cursor ≤ text.left d y.cursor) →
      p.Serves text scope (a + 1) final y (next y)) :
    p.Serves text scope (a + 2) after x (body x fun y =>
      if q.min ≤ count ∧ text.left d x.cursor ≤ text.left d y.cursor then none else next y) := by
  have hcounter := hplaced.grants.head
  have hmark := hplaced.grants.tail.head
  have hstand := hplaced.stand.tail.tail
  have hlt : r + 1 < after.size := hafter.size ▸ hmark.lt_size
  have hbody : p.Placed f (a + 3) (r + 2) scope (scope.freeFrom (r + 2) f.registers)
      (after.setIfInBounds (r + 1) x.cursor).size := by
    rw [Array.size_setIfInBounds, hafter.size]
    exact .of_grants hstand.tail.left hplaced.grants.tail.tail
  apply serves_of_setRegister hstand.head rfl hlt hmark.own
  apply h.meets hbody ?_ _ x (.refl _ _) (.inl rfl) hsize
  intro final y hfinal hymoves hysize
  -- The body has left both registers of the loop as they were.
  have hkept {i : Nat} (hi : i < r + 2) (hinner : i ∉ scope.inner) :
      final[i]? = (after.setIfInBounds (r + 1) x.cursor)[i]? := by
    apply hfinal.get
    rintro (hin | ⟨hle, -⟩)
    · exact hinner hin
    · omega
  have hfinalCount : final[r]? = some count := by
    rw [hkept (by omega) (by simp [hcounter.inner_iff]), Array.getElem?_setIfInBounds_ne (by omega),
      hcount]
  have hfinalMark : final[r + 1]? = some x.cursor := by
    rw [hkept (by omega) (by simp [hmark.inner_iff]),
      Array.getElem?_setIfInBounds_self_of_lt hlt]
  have hfree : AgreeOutside free registers final :=
    (hafter.trans (.set hmark.free)).trans
      (hfinal.mono (hplaced.grants.tail.tail.freeFrom_subset hplaced.inner_subset))
  have hop : p.ops[a + 3 + f.size]? = some (.repeatNext r (r + 1) q.min (a + 1)) := by
    have hbehind := hstand.tail.right.head
    rwa [f.length_ops] at hbehind
  have hstuck := hymoves.eq_iff
  dsimp only
  by_cases hempty : q.min ≤ count ∧ text.left d x.cursor ≤ text.left d y.cursor
  · rw [if_pos hempty]
    exact serves_of_fail hop (by simp [execute, hfinalCount, hfinalMark, hstuck, hempty])
  · rw [if_neg hempty]
    have hr : r < final.size := hfree.size ▸ hcounter.lt_size
    have hback := hnext (final.setIfInBounds r (count + 1)) y (hfree.trans (.set hcounter.free))
      (Array.getElem?_setIfInBounds_self_of_lt hr) hymoves hysize hempty
    exact serves_of_setRegister hop (by simp only [execute, hfinalCount, hfinalMark,
      Option.bind_eq_bind, Option.bind_some, hstuck, hempty, if_false]) hr hcounter.own hback

theorem Realizes.loop {body : Attempt} (h : p.Realizes text d f body) (q : Quantifier) :
    p.Realizes text d (.loop q f) (.repeated text d q body 0) := by
  constructor
  intro a r scope free registers origin k hplaced hk after x hafter hmoves hsize
  have hcounter := hplaced.grants.head
  have hhead : p.ops[a + 1]? = some (.repeatTest r q (a + 3 + f.size + 1)) :=
    hplaced.stand.tail.head
  have hpc : a + (Layout.loop q f).size = a + 3 + f.size + 1 := by
    simp only [Layout.loop]
    omega
  rw [hpc] at hk
  -- The measure drops as in the recursion of `Attempt.repeated`.
  have again : ∀ n after x count, AgreeOutside free registers after → after[r]? = some count →
      text.Moves d origin x.cursor → x.slots.size = 2 * p.groupCount →
      q.min - count + text.left d x.cursor < n →
      p.Serves text scope (a + 1) after x (Attempt.repeated text d q body count x k) := by
    intro n
    induction n with
    | zero => exact fun _ _ _ _ _ _ _ hn => absurd hn (Nat.not_lt_zero _)
    | succ n ih =>
      intro after x count hafter hcount hmoves hsize hn
      have hiterate : ∀ after, AgreeOutside free registers after → after[r]? = some count →
          p.Serves text scope (a + 2) after x (body x fun y =>
            if q.min ≤ count ∧ text.left d x.cursor ≤ text.left d y.cursor then none
            else Attempt.repeated text d q body (count + 1) y k) := by
        intro after hafter hcount
        apply serves_iteration h hplaced hafter hcount hsize
        intro final y hfinal hfinalCount hymoves hysize hempty
        have hle := hymoves.left_le
        exact ih final y (count + 1) hfinal hfinalCount (hmoves.trans hymoves) hysize (by omega)
      have hleave : ∀ after, AgreeOutside free registers after →
          p.Serves text scope (a + 3 + f.size + 1) after x (k x) :=
        fun after hafter => hk after x hafter hmoves hsize
      have hlater {final : Array Nat} (hfinal : AgreeOutside scope.inner after final) :
          AgreeOutside free registers final ∧ final[r]? = some count :=
        ⟨hafter.trans (hfinal.mono hplaced.inner_subset),
          (hfinal.get r (by simp [hcounter.inner_iff])).trans hcount⟩
      rw [Attempt.repeated]
      by_cases hmin : count < q.min
      · rw [if_pos hmin]
        exact serves_of_move hhead (by simp [execute, hcount, hmin]) (hiterate after hafter hcount)
      · rw [if_neg hmin]
        by_cases hmax : q.max.any (· ≤ count)
        · rw [if_pos hmax]
          exact serves_of_move hhead (by simp [execute, hcount, hmin, hmax]) (hleave after hafter)
        · rw [if_neg hmax]
          by_cases hgreedy : q.greedy
          · rw [if_pos hgreedy]
            exact serves_of_split hhead (by simp [execute, hcount, hmin, hmax, hgreedy])
              (hiterate after hafter hcount) fun final hfinal => hleave final (hlater hfinal).1
          · rw [if_neg hgreedy]
            exact serves_of_split hhead (by simp [execute, hcount, hmin, hmax, hgreedy])
              (hleave after hafter) fun final hfinal =>
                hiterate final (hlater hfinal).1 (hlater hfinal).2
  have hr : r < after.size := hafter.size ▸ hcounter.lt_size
  apply serves_of_setRegister hplaced.stand.head rfl hr hcounter.own
  exact again _ _ x 0 (hafter.trans (.set hcounter.free))
    (Array.getElem?_setIfInBounds_self_of_lt hr) hmoves hsize (Nat.lt_succ_self _)

end Machine

/-! ### Patterns -/

/-- The groups that a part of a pattern captures and refers to are below a number. -/
structure GroupsBelow (count : Nat) (captures : List Nat) (leaves : List Leaf) : Prop where
  captures_lt : ∀ n ∈ captures, n < count
  references_lt : ∀ n, .backReference n ∈ leaves → n < count

theorem GroupsBelow.left {count : Nat} {captures captures' : List Nat} {leaves leaves' : List Leaf}
    (h : GroupsBelow count (captures ++ captures') (leaves ++ leaves')) :
    GroupsBelow count captures leaves :=
  ⟨fun n hn => h.captures_lt n (List.mem_append_left _ hn),
    fun n hn => h.references_lt n (List.mem_append_left _ hn)⟩

theorem GroupsBelow.right {count : Nat} {captures captures' : List Nat}
    {leaves leaves' : List Leaf}
    (h : GroupsBelow count (captures ++ captures') (leaves ++ leaves')) :
    GroupsBelow count captures' leaves' :=
  ⟨fun n hn => h.captures_lt n (List.mem_append_right _ hn),
    fun n hn => h.references_lt n (List.mem_append_right _ hn)⟩

theorem spanHull_le {count : Nat} {s t : Option (Nat × Nat)} {range : Nat × Nat}
    (hs : ∀ range, s = some range → range.2 ≤ count)
    (ht : ∀ range, t = some range → range.2 ≤ count) (h : spanHull s t = some range) :
    range.2 ≤ count := by
  match s, t with
  | none, _ => exact ht range (by simpa [spanHull] using h)
  | some s, none => exact hs range h
  | some s, some t =>
    obtain rfl := Option.some.inj h
    exact Nat.max_le.mpr ⟨hs s rfl, ht t rfl⟩

mutual

theorem Term.groupSpan_le {count : Nat} {t : Term} (h : ∀ n ∈ t.captures, n < count) :
    ∀ range, t.groupSpan = some range → range.2 ≤ count := by
  match t with
  | .unit _ | .anchor _ | .backReference _ => exact fun _ h => by cases h
  | .look _ _ body => exact Choice.groupSpan_le h
  | .group capture repeats body =>
    rw [Term.captures_group] at h
    intro range hrange
    rw [Term.groupSpan_group] at hrange
    refine spanHull_le ?_ (Choice.groupSpan_le fun n hn => h n (List.mem_append_right _ hn)) hrange
    intro own hown
    obtain ⟨n, rfl, rfl⟩ := Option.map_eq_some_iff.mp hown
    exact h n (by simp)

theorem Branch.groupSpan_le {count : Nat} {b : Branch} (h : ∀ n ∈ b.captures, n < count) :
    ∀ range, b.groupSpan = some range → range.2 ≤ count := by
  match b with
  | .nil => exact fun _ h => by cases h
  | .cons t rest =>
    rw [Branch.captures_cons] at h
    intro range hrange
    exact spanHull_le (Term.groupSpan_le fun n hn => h n (List.mem_append_left _ hn))
      (Branch.groupSpan_le fun n hn => h n (List.mem_append_right _ hn)) hrange

theorem Choice.groupSpan_le {count : Nat} {c : Choice} (h : ∀ n ∈ c.captures, n < count) :
    ∀ range, c.groupSpan = some range → range.2 ≤ count := by
  match c with
  | .one b => exact Branch.groupSpan_le (b := b) h
  | .more b rest =>
    rw [Choice.captures_more] at h
    intro range hrange
    exact spanHull_le (Branch.groupSpan_le fun n hn => h n (List.mem_append_left _ hn))
      (Choice.groupSpan_le fun n hn => h n (List.mem_append_right _ hn)) hrange

end

/-- Captures may be unset before a pass begins. -/
theorem Attempt.clear_pass (d : Direction) (capture : Option Nat) (span : Option (Nat × Nat))
    (body : Attempt) :
    (fun x k => Attempt.pass d capture none body (x.clear span) k) =
      Attempt.pass d capture span body := by
  funext x k
  cases span <;> rfl

mutual

theorem Term.realizes (p : Machine) (text : Text) (d : Direction) (t : Term)
    (h : GroupsBelow p.groupCount t.captures t.leaves) :
    p.Realizes text d (t.layout d) (t.attempt p.flags text d) := by
  match t with
  | .unit set => exact Machine.realizes_read set
  | .anchor kind => exact Machine.realizes_anchor kind
  | .backReference group =>
    exact Machine.realizes_backReference (h.references_lt group List.mem_cons_self)
  | .look behind negated body => exact (body.realizes p text (.ofLook behind) h).look negated
  | .group capture repeats body =>
    have hspan := Term.groupSpan_le h.captures_lt
    rw [Term.captures_group] at h
    have hpass : p.Realizes text d (.pass d capture (body.layout d))
        (.pass d capture none (body.attempt p.flags text d)) :=
      Machine.realizes_pass (fun group hgroup => h.captures_lt group (by simp [hgroup]))
        (body.realizes p text d ⟨fun n hn => h.captures_lt n (List.mem_append_right _ hn),
          h.references_lt⟩)
    match repeats with
    | none => exact hpass
    | some q =>
      have honce := (Machine.realizes_clear fun lo hi => hspan (lo, hi)).append hpass
      rw [Attempt.clear_pass] at honce
      exact honce.loop q

theorem Branch.realizes (p : Machine) (text : Text) (d : Direction) (b : Branch)
    (h : GroupsBelow p.groupCount b.captures b.leaves) :
    p.Realizes text d (b.layout d) (b.attempt p.flags text d) := by
  match b with
  | .nil => exact Machine.realizes_nil
  | .cons t rest =>
    rw [Branch.captures_cons] at h
    have ht := t.realizes p text d h.left
    have hrest := rest.realizes p text d h.right
    cases d with
    | forward => exact ht.append hrest
    | backward => exact hrest.append ht

theorem Choice.realizes (p : Machine) (text : Text) (d : Direction) (c : Choice)
    (h : GroupsBelow p.groupCount c.captures c.leaves) :
    p.Realizes text d (c.layout d) (c.attempt p.flags text d) := by
  match c with
  | .one b => exact b.realizes p text d h
  | .more b rest =>
    rw [Choice.captures_more] at h
    exact (b.realizes p text d h.left).either (rest.realizes p text d h.right)

end

end UnitRegex
