import UnitRegex.Proofs.Automaton.Steps
import UnitRegex.Proofs.Search.Explored

/-!
Branches that share their counters and captures. Whatever is left to do behind a state that is
followed sees them as they were in front of it, so following a thread comes to the same as exploring
threads that have their own.
-/

namespace UnitRegex

theorem set_set_getD {α : Type} (l : List α) (i : Nat) (a b : α) :
    (l.set i a).set i (l[i]?.getD b) = l := by
  rw [List.set_set]
  by_cases hi : i < l.length
  · simp [hi]
  · exact List.set_eq_of_length_le (by omega)

namespace Frontier

/-- One that needs a unit or accepts waits, unless its state and counters were reached before. -/
def visit (nfa : Nfa) (text : Text) (cursor : Nat) (t : Thread) (f : Frontier) :
    Visit Thread Frontier :=
  match f.enter t with
  | (f, false) => .go [] f
  | (f, true) =>
    match nfa.state t.state with
    | .unit _ _ | .accept => .go [] { f with threads := t :: f.threads }
    | _ => .go (t.successors nfa text cursor) f

variable {nfa : Nfa} {text : Text} {cursor : Nat}

theorem visit_eq_go (t : Thread) (f : Frontier) :
    ∃ next f', visit nfa text cursor t f = .go next f' ∧
      (next = [] ∨ next = t.successors nfa text cursor ∧
        ¬f.Entered (t.state, t.counts) ∧ f'.Entered (t.state, t.counts)) ∧
      ∀ key, f.Entered key → f'.Entered key := by
  have hmono : ∀ key, f.Entered key → (f.enter t).1.Entered key := fun key =>
    entered_enter_of_entered
  have hfresh : (f.enter t).2 = true → _ := entered_enter
  unfold visit
  generalize f.enter t = entered at hmono hfresh
  obtain ⟨f', fresh⟩ := entered
  cases fresh with
  | false => exact ⟨[], f', rfl, .inl rfl, hmono⟩
  | true =>
    dsimp only
    split
    · exact ⟨[], _, rfl, .inl rfl, hmono⟩
    · exact ⟨[], _, rfl, .inl rfl, hmono⟩
    · exact ⟨_, f', rfl, .inr ⟨rfl, hfresh rfl⟩, hmono⟩

instance (nfa : Nfa) (text : Text) (cursor : Nat) : Exhausts (visit nfa text cursor) := by
  refine exhausts_of_keys (fun t : Thread => (t.state, t.counts)) Entered
    (Thread.successors nfa text cursor) (fun t f next f' h => ?_) fun stack => ?_
  · obtain ⟨next', f'', h', hnext⟩ := @visit_eq_go nfa text cursor t f
    cases h.symm.trans h'
    exact hnext
  · obtain ⟨bound, hlimit, hstack⟩ := nfa.exists_bound (stack.map (·.counts))
    refine ⟨fun t => BoundedCounts bound t.counts, _,
      (Finitely.lt nfa.size).prod (.boundedCounts bound),
      fun t ht => hstack _ (List.mem_map_of_mem ht), fun t ht u hu => ?_⟩
    have hbehind := Thread.key_mem_epsilon hu
    exact ⟨Nfa.bounded_of_mem_epsilon hlimit ht hbehind, Nfa.lt_size_of_mem_epsilon hbehind, ht⟩

theorem explore_visit_cons (t : Thread) (rest : List Thread) (f : Frontier) :
    explore (visit nfa text cursor) (t :: rest) f =
      explore (visit nfa text cursor) rest (explore (visit nfa text cursor) [t] f) := by
  refine explore_append (fun t f f' hstop => ?_) [t] rest f
  obtain ⟨next, f'', hgo, -⟩ := @visit_eq_go nfa text cursor t f
  cases hstop.symm.trans hgo

end Frontier

namespace Following

variable {nfa : Nfa} {text : Text} {cursor : Nat} {rest : List Pending} {f : Frontier}
  {counts : List Nat}

/-- Slots that are set back are as they were. -/
theorem explore_slotsBack {slots changed : Slots} (hsize : changed.size = slots.size)
    {back : List Nat} (hsame : ∀ i, i ∉ back → changed[i]? = slots[i]?) :
    explore (visit nfa text cursor)
        ((back.map fun slot => .setSlot slot (slots[slot]?.getD (-1))) ++ rest)
        ⟨f, counts, changed⟩ =
      explore (visit nfa text cursor) rest ⟨f, counts, slots⟩ := by
  induction back generalizing changed with
  | nil =>
    rw [Array.ext_getElem? fun i => hsame i (by simp)]
    rfl
  | cons slot back ih =>
    rw [List.map_cons, List.cons_append, explore_cons]
    refine ih (by simpa using hsize) fun i hi => ?_
    rw [Array.getElem?_setIfInBounds]
    split
    · rename_i heq
      subst heq
      split
      · rename_i hlt
        rw [hsize] at hlt
        simp [hlt]
      · rename_i hlt
        rw [hsize] at hlt
        rw [Array.getElem?_eq_none (by omega)]
    · rename_i hne
      exact hsame i (by simp [hi, Ne.symm hne])

theorem explore_setCount (counter value : Nat) (slots : Slots) :
    explore (visit nfa text cursor) (.setCount counter value :: rest) ⟨f, counts, slots⟩ =
      explore (visit nfa text cursor) rest ⟨f, counts.set counter value, slots⟩ := by
  rw [explore_cons]
  rfl

/-- A counter that is set back is as it was. -/
theorem explore_countBack (slots : Slots) (counter value : Nat) :
    explore (visit nfa text cursor) (.setCount counter (counts[counter]?.getD 0) :: rest)
        ⟨f, counts.set counter value, slots⟩ =
      explore (visit nfa text cursor) rest ⟨f, counts, slots⟩ := by
  rw [explore_setCount, set_set_getD]

/-- Following the state of a thread comes to the same as exploring the thread. -/
def Follows (nfa : Nfa) (text : Text) (cursor : Nat) (t : Thread) : Prop :=
  ∀ f rest, explore (visit nfa text cursor) (.follow t.state :: rest) ⟨f, t.counts, t.slots⟩ =
    explore (visit nfa text cursor) rest
      ⟨explore (Frontier.visit nfa text cursor) [t] f, t.counts, t.slots⟩

theorem explore_targets {slots : Slots} {targets : List Nat}
    (htargets : ∀ s ∈ targets, Follows nfa text cursor ⟨s, counts, slots⟩) :
    explore (visit nfa text cursor) (targets.map .follow ++ rest) ⟨f, counts, slots⟩ =
      explore (visit nfa text cursor) rest
        ⟨explore (Frontier.visit nfa text cursor) (targets.map fun s => ⟨s, counts, slots⟩) f,
          counts, slots⟩ := by
  induction targets generalizing f with
  | nil => rw [List.map_nil, List.map_nil, explore_nil (Frontier.visit nfa text cursor)]; rfl
  | cons s targets ih =>
    rw [List.map_cons, List.cons_append, htargets s (by simp),
      ih fun s hs => htargets s (by simp [hs]), List.map_cons, ← Frontier.explore_visit_cons]

theorem explore_choices {t : Thread} {counter : Nat} {choices : List (Nat × Nat)}
    (hchoices : ∀ choice ∈ choices,
      Follows nfa text cursor { t.setCount counter choice.2 with state := choice.1 }) :
    explore (visit nfa text cursor)
        ((choices.flatMap fun choice =>
          [.setCount counter choice.2, .follow choice.1, .setCount counter (t.count counter)]) ++
          rest) ⟨f, t.counts, t.slots⟩ =
      explore (visit nfa text cursor) rest
        ⟨explore (Frontier.visit nfa text cursor)
          (choices.map fun choice => { t.setCount counter choice.2 with state := choice.1 }) f,
          t.counts, t.slots⟩ := by
  induction choices generalizing f with
  | nil => rw [List.map_nil, explore_nil (Frontier.visit nfa text cursor)]; rfl
  | cons choice choices ih =>
    rw [List.flatMap_cons, List.append_assoc, List.cons_append, explore_setCount, List.map_cons,
      Frontier.explore_visit_cons]
    refine (hchoices choice (by simp) f _).trans ((explore_countBack _ _ _).trans ?_)
    exact ih fun choice hchoice => hchoices choice (by simp [hchoice])

/-- No branch sees what another one changed, and neither does what comes behind them. -/
theorem explore_branch {t : Thread}
    (hnext : ∀ u ∈ t.successors nfa text cursor, Follows nfa text cursor u) :
    explore (visit nfa text cursor) ((branch nfa text cursor t).1 ++ rest)
        ⟨f, (branch nfa text cursor t).2.1, (branch nfa text cursor t).2.2⟩ =
      explore (visit nfa text cursor) rest
        ⟨explore (Frontier.visit nfa text cursor) (t.successors nfa text cursor) f, t.counts,
          t.slots⟩ := by
  unfold Thread.successors at hnext ⊢
  cases hs : nfa.state t.state <;> simp only [branch, hs] at hnext ⊢
  case unit => rw [explore_nil (Frontier.visit nfa text cursor), List.nil_append]
  case accept => rw [explore_nil (Frontier.visit nfa text cursor), List.nil_append]
  case split targets => exact explore_targets fun s hs => hnext _ (List.mem_map_of_mem hs)
  case assert guard next =>
    split at hnext
    · rename_i hholds
      rw [if_pos hholds, if_pos hholds]
      exact hnext _ (List.mem_singleton_self _) f rest
    · rename_i hholds
      rw [if_neg hholds, if_neg hholds, explore_nil (Frontier.visit nfa text cursor),
        List.nil_append]
  case save slot next =>
    refine (hnext _ (List.mem_singleton_self _) f _).trans ?_
    have hsame : ∀ i, i ∉ [slot] → (t.slots.setIfInBounds slot cursor)[i]? = t.slots[i]? := by
      intro i hi
      simp [Ne.symm (List.ne_of_not_mem_cons hi)]
    exact explore_slotsBack (by simp) hsame
  case unset lo hi' next =>
    refine (hnext _ (List.mem_singleton_self _) f _).trans ?_
    refine explore_slotsBack Array.size_mapIdx fun i hi => ?_
    have hout : ¬(2 * lo ≤ i ∧ i < 2 * hi') := fun hin =>
      hi (List.mem_reverse.mpr (List.mem_range'_1.mpr (by omega)))
    simp [hout]
  case reset counter next =>
    refine (hnext _ (List.mem_singleton_self _) f _).trans ?_
    exact explore_countBack _ _ _
  case increment counter limit next =>
    refine (hnext _ (List.mem_singleton_self _) f _).trans ?_
    exact explore_countBack _ _ _
  case loop counter min max greedy body exit =>
    cases hchoices : countChoices min max greedy body exit (t.count counter) with
    | nil =>
      rw [List.map_nil, explore_nil (Frontier.visit nfa text cursor)]
      rfl
    | cons first rest =>
      -- The first choice is set on the spot, which is what a pending change would do.
      rw [hchoices] at hnext
      refine Eq.trans ?_ (explore_choices fun choice hchoice =>
        hnext _ (List.mem_map_of_mem hchoice))
      exact (explore_setCount counter first.2 t.slots).symm

/-- A thread is followed as if all its branches had counters and slots of their own. -/
theorem follows (h : nfa.Grounded) (t : Thread) : Follows nfa text cursor t := by
  generalize hk : (t.state, t.counts) = k
  induction k using (WellFounded.intro fun a => Nfa.acc_of_settles (h a)).induction
    generalizing t with
  | _ k ih =>
    subst hk
    intro f rest
    have hbranch : ∀ f', explore (visit nfa text cursor) ((branch nfa text cursor t).1 ++ rest)
        ⟨f', (branch nfa text cursor t).2.1, (branch nfa text cursor t).2.2⟩ = _ := fun f' =>
      explore_branch fun u hu => ih _ (Thread.key_mem_epsilon hu) u rfl
    rw [explore_cons, explore_cons (Frontier.visit nfa text cursor)]
    simp only [visit, Frontier.visit, List.append_nil]
    obtain ⟨f', fresh⟩ := f.enter t
    cases fresh with
    | false =>
      simp only [explore_nil (Frontier.visit nfa text cursor), List.nil_append]
    | true =>
      cases hs : nfa.state t.state <;>
        simp only [explore_nil (Frontier.visit nfa text cursor), List.nil_append]
      all_goals exact hbranch f'

end Following

/-- Following a thread is exploring it. -/
theorem Frontier.add_eq_explore {nfa : Nfa} (h : nfa.Grounded) (text : Text) (cursor : Nat)
    (f : Frontier) (t : Thread) :
    f.add nfa text cursor t = explore (visit nfa text cursor) [t] f := by
  rw [add, Following.follows h t f [], explore_nil (Following.visit nfa text cursor)]

end UnitRegex
