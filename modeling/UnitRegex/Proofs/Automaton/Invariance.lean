import UnitRegex.Proofs.Automaton.Steps

/-!
What a depth-first search does not depend on. It never looks at captures, so it may be followed
without them, and it does not look at what may be read behind the end of the match that it finds.
-/

namespace UnitRegex

/-- A configuration without its captures. -/
def Configuration.bare (x : Configuration) : Configuration :=
  { x with thread := { x.thread with slots := #[] } }

@[simp] theorem Configuration.bare_state (x : Configuration) : x.bare.state = x.state := rfl

@[simp] theorem Configuration.bare_cursor (x : Configuration) : x.bare.cursor = x.cursor := rfl

theorem Slots.unsetGroups_empty (lo hi : Nat) : Slots.unsetGroups #[] lo hi = #[] := rfl

theorem Thread.successors_bare (nfa : Nfa) (text : Text) (cursor : Nat) (t : Thread) :
    Thread.successors nfa text cursor { t with slots := #[] } =
      (t.successors nfa text cursor).map fun u => { u with slots := #[] } := by
  unfold Thread.successors
  cases hs : nfa.state t.state <;>
    simp only [List.map_nil, List.map_singleton, List.map_map, Function.comp_def]
  case assert guard next =>
    split <;> rfl
  case save slot next => rfl
  case unset lo hi next => rfl
  case reset counter next => rfl
  case increment counter limit next => rfl
  case loop counter low high greedy body exit => rfl

/-- Where there is no guard, a thread without captures goes on wherever its state does. -/
theorem Thread.successors_of_not_assert {nfa : Nfa} {text : Text} {cursor : Nat}
    {a : Nat × List Nat} (h : ∀ guard next, nfa.state a.1 ≠ .assert guard next) :
    Thread.successors nfa text cursor ⟨a.1, a.2, #[]⟩ =
      (nfa.epsilon a).map fun b => ⟨b.1, b.2, #[]⟩ := by
  unfold Thread.successors Nfa.epsilon
  cases hs : nfa.state a.1
  case assert guard next => exact absurd hs (h guard next)
  all_goals simp [setCount, count, Slots.unsetGroups_empty]

namespace Nfa

variable {nfa : Nfa} {text : Text} {stop : Nat}

theorem steps_bare (x : Configuration) :
    nfa.steps text stop x.bare = (nfa.steps text stop x).map Configuration.bare := by
  rcases (nfa.state x.state).unit_or with ⟨set, next, hs⟩ | hunit
  · rw [steps_of_unit (x := x.bare) hs, steps_of_unit hs, Configuration.bare_cursor]
    cases text.read x.cursor nfa.direction with
    | none => rfl
    | some after =>
      obtain ⟨c, cursor⟩ := after
      by_cases hset : set.contains c ∧ (nfa.direction = .forward → x.cursor < stop)
      · simp only [if_pos hset, List.map_singleton]
        rfl
      · simp only [if_neg hset, List.map_nil]
  · have hthread : x.bare.thread = { x.thread with slots := #[] } := rfl
    rw [steps_of_not_unit (x := x.bare) hunit, steps_of_not_unit hunit, hthread,
      Configuration.bare_cursor, Thread.successors_bare, List.map_map, List.map_map]
    rfl

theorem findSome?_map_eq {α β : Type} {f : α → Option β} {g : α → α} {g' : β → β} {l : List α}
    (h : ∀ a ∈ l, f (g a) = (f a).map g') : (l.map g).findSome? f = (l.findSome? f).map g' := by
  induction l with
  | nil => rfl
  | cons a l ih =>
    rw [List.map_cons, List.findSome?_cons, List.findSome?_cons, h a (by simp),
      ih fun b hb => h b (by simp [hb])]
    cases f a <;> rfl

/-- A search without captures finds the same, without captures. -/
theorem first_bare (h : nfa.Grounded) (x : Configuration) :
    nfa.first h text stop x.bare = (nfa.first h text stop x).map Configuration.bare := by
  induction x using (h.wellFounded text).induction with
  | _ x ih =>
    by_cases haccept : nfa.state x.state = .accept
    · rw [first_of_accept h haccept, first_of_accept h (x := x.bare) haccept]
      rfl
    · rw [first_eq_findSome? h haccept, first_eq_findSome? h (x := x.bare) haccept, steps_bare]
      exact findSome?_map_eq fun y hy => ih y (stepOrder_of_mem_steps hy)

/-- Whether a search succeeds does not depend on the captures. -/
theorem isSome_first_of_key (h : nfa.Grounded) {x y : Configuration} (hcursor : x.cursor = y.cursor)
    (hkey : x.key = y.key) :
    (nfa.first h text stop x).isSome = (nfa.first h text stop y).isSome := by
  have hbare : x.bare = y.bare := by
    obtain ⟨cx, ⟨sx, kx, lx⟩⟩ := x
    obtain ⟨cy, ⟨sy, ky, ly⟩⟩ := y
    simp only [Configuration.key, Prod.mk.injEq] at hkey hcursor
    simp only [Configuration.bare, hcursor, hkey.1, hkey.2]
  have hx : (nfa.first h text stop x.bare).isSome = _ := congrArg Option.isSome (first_bare h x)
  have hy : (nfa.first h text stop y.bare).isSome = _ := congrArg Option.isSome (first_bare h y)
  rw [Option.isSome_map] at hx hy
  rw [← hx, ← hy, hbare]

theorem cursor_le_of_mem_steps (hd : nfa.direction = .forward) {x y : Configuration}
    (hy : y ∈ nfa.steps text stop x) : x.cursor ≤ y.cursor := by
  rcases mem_steps hy with ⟨_, _, _, _, hread, _, _⟩ | ⟨hcursor, _⟩
  · have hle := Text.le_size_of_read hread
    have hlt := Text.left_lt_of_read hread
    rw [hd] at hlt
    simp only [Text.left] at hlt
    omega
  · exact Nat.le_of_eq hcursor.symm

theorem cursor_le_of_first (h : nfa.Grounded) (hd : nfa.direction = .forward) {x y : Configuration}
    (hfirst : nfa.first h text stop x = some y) : x.cursor ≤ y.cursor := by
  induction x using (h.wellFounded text).induction with
  | _ x ih =>
    by_cases haccept : nfa.state x.state = .accept
    · rw [first_of_accept h haccept] at hfirst
      obtain rfl := Option.some.inj hfirst
      exact Nat.le_refl _
    · rw [first_eq_findSome? h haccept] at hfirst
      obtain ⟨z, hz, hzy⟩ := List.exists_of_findSome?_eq_some hfirst
      exact Nat.le_trans (cursor_le_of_mem_steps hd hz) (ih z (stepOrder_of_mem_steps hz) hzy)

theorem cursor_le_size_of_first (h : nfa.Grounded) {x y : Configuration} (hx : x.cursor ≤ text.size)
    (hfirst : nfa.first h text stop x = some y) : y.cursor ≤ text.size := by
  induction x using (h.wellFounded text).induction with
  | _ x ih =>
    by_cases haccept : nfa.state x.state = .accept
    · rw [first_of_accept h haccept] at hfirst
      obtain rfl := Option.some.inj hfirst
      exact hx
    · rw [first_eq_findSome? h haccept] at hfirst
      obtain ⟨z, hz, hzy⟩ := List.exists_of_findSome?_eq_some hfirst
      refine ih z (stepOrder_of_mem_steps hz) ?_ hzy
      rcases mem_steps hz with ⟨_, _, _, _, hread, _, _⟩ | ⟨hcursor, _⟩
      · exact Text.le_size_of_read hread
      · rw [hcursor]
        exact hx

/-- In front of a limit the same steps can be taken as without one. -/
theorem steps_of_limit (hd : nfa.direction = .forward) (hstop : stop ≤ text.size)
    (x : Configuration) :
    nfa.steps text stop x = nfa.steps text text.size x ∨
      (nfa.steps text stop x = [] ∧ ∀ y ∈ nfa.steps text text.size x, stop < y.cursor) := by
  rcases (nfa.state x.state).unit_or with ⟨set, next, hs⟩ | hunit
  · rw [steps_of_unit hs, steps_of_unit hs]
    cases hread : text.read x.cursor nfa.direction with
    | none => exact .inl rfl
    | some after =>
      obtain ⟨c, cursor⟩ := after
      simp only
      have hle := Text.le_size_of_read hread
      have hlt := Text.left_lt_of_read hread
      rw [hd] at hlt
      simp only [Text.left] at hlt
      by_cases hlimit : x.cursor < stop
      · left
        simp only [hd, hlimit, show x.cursor < text.size by omega]
      · right
        refine ⟨by simp [hd, hlimit], fun y hy => ?_⟩
        split at hy
        · obtain rfl := List.mem_singleton.mp hy
          simp only
          omega
        · simp at hy
  · left
    rw [steps_of_not_unit hunit, steps_of_not_unit hunit]

/-- With a limit nothing else is found. -/
theorem first_of_limit (h : nfa.Grounded) (hd : nfa.direction = .forward)
    (hstop : stop ≤ text.size) (x : Configuration) :
    (nfa.first h text text.size x = none → nfa.first h text stop x = none) ∧
      ∀ y, nfa.first h text text.size x = some y → y.cursor ≤ stop →
        nfa.first h text stop x = some y := by
  induction x using (h.wellFounded text).induction with
  | _ x ih =>
    by_cases haccept : nfa.state x.state = .accept
    · rw [first_of_accept h haccept, first_of_accept h haccept]
      exact ⟨fun hx => hx, fun y hy _ => hy⟩
    · rw [first_eq_findSome? h haccept, first_eq_findSome? h haccept]
      rcases steps_of_limit hd hstop x with hsame | ⟨hnone, hfar⟩
      · rw [hsame]
        constructor
        · intro hfirst
          rw [List.findSome?_eq_none_iff] at hfirst ⊢
          exact fun z hz => (ih z (stepOrder_of_mem_steps hz)).1 (hfirst z hz)
        · intro y hy hle
          obtain ⟨front, z, back, hsteps, hz, hfront⟩ := List.findSome?_eq_some_iff.mp hy
          have hmem : z ∈ nfa.steps text text.size x := by simp [hsteps]
          refine List.findSome?_eq_some_iff.mpr ⟨front, z, back, hsteps, ?_, fun w hw => ?_⟩
          · exact (ih z (stepOrder_of_mem_steps hmem)).2 y hz hle
          · have hmem' : w ∈ nfa.steps text text.size x := by simp [hsteps, hw]
            exact (ih w (stepOrder_of_mem_steps hmem')).1 (hfront w hw)
      · rw [hnone]
        refine ⟨fun _ => rfl, fun y hy hle => ?_⟩
        obtain ⟨z, hz, hzy⟩ := List.exists_of_findSome?_eq_some hy
        have hzcursor := hfar z hz
        have hycursor := cursor_le_of_first h hd hzy
        omega

end Nfa

end UnitRegex
