import UnitRegex.Backtrack.Halting
import UnitRegex.Search.Threads

/-!
Runs of an automaton one step at a time. A configuration is a thread at a position; following the
steps depth first, in order of priority, finds its preferred accepting path. This ends if the states
and counters that follow one another without a unit in between do.
-/

namespace UnitRegex

namespace Thread

def setCount (t : Thread) (counter value : Nat) : Thread :=
  { t with counts := t.counts.set counter value }

/-- The threads one step further without reading a unit, highest priority first. -/
def successors (nfa : Nfa) (text : Text) (cursor : Nat) (t : Thread) : List Thread :=
  match nfa.state t.state with
  | .unit _ _ | .accept => []
  | .split targets => targets.map fun s => { t with state := s }
  | .assert guard next => if nfa.holds text cursor guard then [{ t with state := next }] else []
  | .save slot next => [{ t with state := next, slots := t.slots.setIfInBounds slot cursor }]
  | .unset lo hi next =>
    [{ t with state := next, slots := t.slots.unsetGroups lo hi }]
  | .reset counter next => [{ t.setCount counter 0 with state := next }]
  | .increment counter limit next =>
    [{ t.setCount counter (min (t.count counter + 1) limit) with state := next }]
  | .loop counter min max greedy body exit =>
    (countChoices min max greedy body exit (t.count counter)).map fun choice =>
      { t.setCount counter choice.2 with state := choice.1 }

end Thread

/-- A thread at a position in the text. -/
structure Configuration where
  cursor : Nat
  thread : Thread

namespace Configuration

def state (x : Configuration) : Nat := x.thread.state

/-- What decides how a configuration can go on, apart from the position. -/
def key (x : Configuration) : Nat × List Nat := (x.thread.state, x.thread.counts)

/-- The same in front of another state. -/
def goTo (x : Configuration) (state : Nat) : Configuration :=
  { x with thread := { x.thread with state := state } }

end Configuration

namespace Nfa

/-- The configurations one step further, highest priority first. To the right no unit from `stop` on
is read. -/
def steps (nfa : Nfa) (text : Text) (stop : Nat) (x : Configuration) : List Configuration :=
  match nfa.state x.state with
  | .unit set next =>
    match text.read x.cursor nfa.direction with
    | some (c, cursor) =>
      if set.contains c ∧ (nfa.direction = .forward → x.cursor < stop) then
        [{ x.goTo next with cursor := cursor }]
      else []
    | none => []
  | _ => (x.thread.successors nfa text x.cursor).map fun t => ⟨x.cursor, t⟩

/-- Every way on from a state and its counters comes to an end, reads a unit, or reaches a given
place. -/
inductive Settles (nfa : Nfa) (reached : Nat × List Nat → Prop) : Nat × List Nat → Prop
  | stop {a : Nat × List Nat} (h : reached a) : Settles nfa reached a
  | go {a : Nat × List Nat} (h : ∀ b ∈ nfa.epsilon a, Settles nfa reached b) :
    Settles nfa reached a

/-- Nowhere can an automaton go on forever without reading. -/
def Grounded (nfa : Nfa) : Prop := ∀ a, nfa.Settles (fun _ => False) a

theorem Settles.bind {nfa : Nfa} {P Q : Nat × List Nat → Prop} {a : Nat × List Nat}
    (h : nfa.Settles P a) (hP : ∀ b, P b → nfa.Settles Q b) : nfa.Settles Q a := by
  induction h with
  | stop h => exact hP _ h
  | go _ ih => exact .go ih

theorem acc_of_settles {nfa : Nfa} {a : Nat × List Nat} (h : nfa.Settles (fun _ => False) a) :
    Acc (fun b a => b ∈ nfa.epsilon a) a := by
  induction h with
  | stop h => exact h.elim
  | go _ ih => exact ⟨_, ih⟩

end Nfa

theorem Text.left_lt_of_read {text : Text} {d : Direction} {cursor next : Nat} {c : CodeUnit}
    (h : text.read cursor d = some (c, next)) : text.left d next < text.left d cursor := by
  cases d with
  | forward =>
    simp only [read] at h
    obtain ⟨_, hget, he⟩ := Option.map_eq_some_iff.mp h
    obtain ⟨hlt, -⟩ := Array.getElem?_eq_some_iff.mp hget
    obtain ⟨-, rfl⟩ := Prod.mk.inj he
    simp only [left]
    omega
  | backward =>
    simp only [read] at h
    split at h
    · simp at h
    · obtain ⟨_, -, he⟩ := Option.map_eq_some_iff.mp h
      obtain ⟨-, rfl⟩ := Prod.mk.inj he
      simp only [left]
      omega

theorem Text.le_size_of_read {text : Text} {d : Direction} {cursor next : Nat} {c : CodeUnit}
    (h : text.read cursor d = some (c, next)) : next ≤ text.size := by
  cases d with
  | forward =>
    simp only [read] at h
    obtain ⟨_, hget, he⟩ := Option.map_eq_some_iff.mp h
    obtain ⟨hlt, -⟩ := Array.getElem?_eq_some_iff.mp hget
    obtain ⟨-, rfl⟩ := Prod.mk.inj he
    exact hlt
  | backward =>
    simp only [read] at h
    split at h
    · simp at h
    · obtain ⟨_, hget, he⟩ := Option.map_eq_some_iff.mp h
      obtain ⟨hlt, -⟩ := Array.getElem?_eq_some_iff.mp hget
      obtain ⟨-, rfl⟩ := Prod.mk.inj he
      omega

/-- What is read lies in the text. -/
theorem Text.lt_size_and_any (text : Text) (cursor : Nat) (p : CodeUnit → Bool) :
    (decide (cursor < text.size) && text[cursor]?.any p) = text[cursor]?.any p := by
  cases hget : text[cursor]? with
  | none => simp
  | some c =>
    obtain ⟨hlt, -⟩ := Array.getElem?_eq_some_iff.mp hget
    simp [hlt]

theorem Thread.key_mem_epsilon {nfa : Nfa} {text : Text} {cursor : Nat} {t u : Thread}
    (h : u ∈ t.successors nfa text cursor) :
    (u.state, u.counts) ∈ nfa.epsilon (t.state, t.counts) := by
  unfold successors at h
  unfold Nfa.epsilon
  cases hs : nfa.state t.state <;> simp only [hs] at h ⊢
  case unit => simp at h
  case accept => simp at h
  case split targets =>
    obtain ⟨s, hs, rfl⟩ := List.mem_map.mp h
    exact List.mem_map.mpr ⟨s, hs, rfl⟩
  case assert guard next =>
    split at h
    · obtain rfl := List.mem_singleton.mp h
      exact List.mem_singleton.mpr rfl
    · simp at h
  case save slot next =>
    obtain rfl := List.mem_singleton.mp h
    exact List.mem_singleton.mpr rfl
  case unset lo hi next =>
    obtain rfl := List.mem_singleton.mp h
    exact List.mem_singleton.mpr rfl
  case reset counter next =>
    obtain rfl := List.mem_singleton.mp h
    exact List.mem_singleton.mpr rfl
  case increment counter limit next =>
    obtain rfl := List.mem_singleton.mp h
    exact List.mem_singleton.mpr rfl
  case loop counter low high greedy body exit =>
    obtain ⟨choice, hc, rfl⟩ := List.mem_map.mp h
    exact List.mem_map.mpr ⟨choice, hc, rfl⟩

namespace Nfa

variable {nfa : Nfa} {text : Text} {stop : Nat}

theorem steps_of_unit {x : Configuration} {set : CharSet} {next : Nat}
    (h : nfa.state x.state = .unit set next) :
    nfa.steps text stop x =
      match text.read x.cursor nfa.direction with
      | some (c, cursor) =>
        if set.contains c ∧ (nfa.direction = .forward → x.cursor < stop) then
          [{ x.goTo next with cursor := cursor }]
        else []
      | none => [] := by
  simp only [steps, h]

theorem steps_of_not_unit {x : Configuration}
    (h : ∀ set next, nfa.state x.state ≠ .unit set next) :
    nfa.steps text stop x =
      (x.thread.successors nfa text x.cursor).map fun t => ⟨x.cursor, t⟩ := by
  unfold steps
  split
  · rename_i set next hs
    exact absurd hs (h set next)
  · rfl

/-- A step reads a unit, or it stays at its position and follows without one. -/
theorem mem_steps {x y : Configuration} (h : y ∈ nfa.steps text stop x) :
    (∃ set c, nfa.state x.state = .unit set y.state ∧ set.contains c = true ∧
      text.read x.cursor nfa.direction = some (c, y.cursor) ∧
      (nfa.direction = .forward → x.cursor < stop) ∧
      y.thread = { x.thread with state := y.state }) ∨
    (y.cursor = x.cursor ∧ y.thread ∈ x.thread.successors nfa text x.cursor) := by
  unfold steps at h
  split at h
  · rename_i set next hs
    split at h
    · rename_i c cursor hread
      split at h
      · rename_i hset
        obtain rfl := List.mem_singleton.mp h
        exact .inl ⟨set, c, hs, hset.1, hread, hset.2, rfl⟩
      · simp at h
    · simp at h
  · obtain ⟨t, ht, rfl⟩ := List.mem_map.mp h
    exact .inr ⟨rfl, ht⟩

/-- Every step reads a unit or follows without one. -/
def StepOrder (nfa : Nfa) (text : Text) : Configuration → Configuration → Prop :=
  InvImage (Prod.Lex (· < ·) fun b a => b ∈ nfa.epsilon a)
    fun x => (text.left nfa.direction x.cursor, x.key)

theorem Grounded.wellFounded (h : nfa.Grounded) (text : Text) :
    WellFounded (nfa.StepOrder text) :=
  InvImage.wf _ ⟨fun a => Prod.lexAccessible (Nat.lt_wfRel.wf.apply a.1)
    (fun b => acc_of_settles (h b)) a.2⟩

theorem stepOrder_of_mem_steps {x y : Configuration} (h : y ∈ nfa.steps text stop x) :
    nfa.StepOrder text y x := by
  rcases mem_steps h with ⟨_, _, _, _, hread, _, _⟩ | ⟨hcursor, hmem⟩
  · exact Prod.Lex.left _ _ (Text.left_lt_of_read hread)
  · have hkey : y.key ∈ nfa.epsilon x.key := Thread.key_mem_epsilon hmem
    simp only [StepOrder, InvImage, hcursor]
    exact Prod.Lex.right _ hkey

/-- The end of the preferred accepting path from a configuration, found depth first. -/
noncomputable def first (h : nfa.Grounded) (text : Text) (stop : Nat) :
    Configuration → Option Configuration :=
  (h.wellFounded text).fix fun x rec =>
    if nfa.state x.state = .accept then some x
    else (nfa.steps text stop x).attach.findSome? fun y =>
      rec y.1 (stepOrder_of_mem_steps y.2)

theorem first_of_accept (h : nfa.Grounded) {x : Configuration}
    (hx : nfa.state x.state = .accept) : nfa.first h text stop x = some x := by
  rw [first, WellFounded.fix_eq, if_pos hx]

theorem first_eq_findSome? (h : nfa.Grounded) {x : Configuration}
    (hx : nfa.state x.state ≠ .accept) :
    nfa.first h text stop x = (nfa.steps text stop x).findSome? (nfa.first h text stop) := by
  rw [first, WellFounded.fix_eq, if_neg hx, List.findSome?_subtype fun _ _ => rfl,
    List.unattach_attach]

theorem first_of_not_unit (h : nfa.Grounded) {cursor : Nat} {t : Thread}
    (hunit : ∀ set next, nfa.state t.state ≠ .unit set next)
    (haccept : nfa.state t.state ≠ .accept) :
    nfa.first h text stop ⟨cursor, t⟩ =
      (t.successors nfa text cursor).findSome? fun u => nfa.first h text stop ⟨cursor, u⟩ := by
  rw [first_eq_findSome? (x := ⟨cursor, t⟩) h haccept,
    steps_of_not_unit (x := ⟨cursor, t⟩) hunit, List.findSome?_map]
  rfl

/-- To the right a unit at the position is read. -/
theorem first_of_unit (h : nfa.Grounded) (hd : nfa.direction = .forward) {cursor next : Nat}
    {t : Thread} {set : CharSet} (ht : nfa.state t.state = .unit set next) :
    nfa.first h text stop ⟨cursor, t⟩ =
      if cursor < stop && text[cursor]?.any (set.contains ·) then
        nfa.first h text stop ⟨cursor + 1, { t with state := next }⟩
      else none := by
  have haccept : nfa.state t.state ≠ .accept := by simp [ht]
  rw [first_eq_findSome? (x := ⟨cursor, t⟩) h haccept, steps_of_unit (x := ⟨cursor, t⟩) ht, hd]
  simp only [Text.read]
  cases hget : text[cursor]? with
  | none => simp
  | some c =>
    by_cases hset : set.contains c <;> by_cases hlt : cursor < stop <;>
      simp [hset, hlt, Configuration.goTo]

end Nfa

end UnitRegex
