import UnitRegex.Search.Finitely

/-!
Exploration of a graph in order of priority. What is found at a place decides whether the search is
over; otherwise the successors of the place are explored before all that waits. Places seen before
are up to the visits. An exploration ends where a visit that leads on sets a mark, and only finitely
many marks can be set.
-/

namespace UnitRegex

/-- What comes of a visit to one place. -/
inductive Visit (π σ : Type) where
  | stop (found : σ)
  /-- The places to explore next, highest priority first. -/
  | go (next : List π) (found : σ)

section

variable {π σ κ : Type}

namespace Visit

def isStop : Visit π σ → Bool
  | stop _ => true
  | go _ _ => false

def found : Visit π σ → σ
  | stop found | go _ found => found

def next : Visit π σ → List π
  | stop _ => []
  | go next _ => next

theorem eq_go {v : Visit π σ} (h : ¬v.isStop) : v = go v.next v.found := by
  cases v with
  | stop found => simp [isStop] at h
  | go next found => rfl

end Visit

/-- One visit of an exploration. A stage is made of what waits and of what was found so far; the
later one comes first. -/
inductive Visited (visit : π → σ → Visit π σ) : List π × σ → List π × σ → Prop where
  | go {p : π} {rest next : List π} {found found' : σ} (h : visit p found = .go next found') :
    Visited visit (next ++ rest, found') (p :: rest, found)

/-- Visits that bring every exploration to an end. -/
class Exhausts (visit : π → σ → Visit π σ) : Prop where
  wellFounded : WellFounded (Visited visit)

theorem wellFounded_visited (visit : π → σ → Visit π σ) [Exhausts visit] :
    WellFounded (Visited visit) :=
  Exhausts.wellFounded

/-- Visits the waiting places in order and collects what is found. -/
def explore (visit : π → σ → Visit π σ) [Exhausts visit] (stack : List π) (found : σ) : σ :=
  match stack with
  | [] => found
  | p :: rest =>
    let visited := visit p found
    if _goesOn : visited.isStop then visited.found
    else explore visit (visited.next ++ rest) visited.found
termination_by (wellFounded_visited visit).wrap (stack, found)
decreasing_by exact .go (Visit.eq_go _goesOn)

theorem explore_nil (visit : π → σ → Visit π σ) [Exhausts visit] (found : σ) :
    explore visit [] found = found := by
  rw [explore]

theorem explore_cons (visit : π → σ → Visit π σ) [Exhausts visit] (p : π) (rest : List π)
    (found : σ) :
    explore visit (p :: rest) found =
      match visit p found with
      | .stop found => found
      | .go next found => explore visit (next ++ rest) found := by
  rw [explore]
  cases visit p found <;> rfl

/-- Visits that never unset a mark, and that set one of finitely many where they lead on. -/
structure SetsMarks (visit : π → σ → Visit π σ) (marked : σ → κ → Prop) (inv : List π → σ → Prop)
    (possible : κ → Prop) : Prop where
  finitely : Finitely possible
  step : ∀ p rest f next f', inv (p :: rest) f → visit p f = .go next f' →
    inv (next ++ rest) f' ∧ (∀ k, marked f k → marked f' k) ∧
      (next ≠ [] → ∃ k, possible k ∧ ¬marked f k ∧ marked f' k)

open Classical in
/-- With every mark fewer are left to set, and without one fewer places wait. -/
theorem SetsMarks.acc {visit : π → σ → Visit π σ} {marked : σ → κ → Prop}
    {inv : List π → σ → Prop} {possible : κ → Prop} (h : SetsMarks visit marked inv possible)
    {stack : List π} {found : σ} (hinv : inv stack found) : Acc (Visited visit) (stack, found) := by
  obtain ⟨keys, hkeys⟩ := h.finitely
  let left (f : σ) : Nat := keys.countP fun k => ¬marked f k
  have hends : ∀ stage : List π × σ, inv stage.1 stage.2 → Acc (Visited visit) stage := by
    intro stage
    induction stage using (InvImage.wf (fun stage : List π × σ => (left stage.2, stage.1.length))
      (Prod.lex Nat.lt_wfRel Nat.lt_wfRel).wf).induction with
    | _ stage ih =>
      intro hinv
      refine ⟨_, fun later hlater => ?_⟩
      cases hlater with
      | @go p rest next f f' hvisit =>
        obtain ⟨hinv', hmono, hsets⟩ := h.step _ _ _ _ _ hinv hvisit
        refine ih _ ?_ hinv'
        have hleft : ∀ k ∈ keys, decide (¬marked f' k) → decide (¬marked f k) := by
          intro k _ hk
          have hk := of_decide_eq_true hk
          exact decide_eq_true fun hf => hk (hmono k hf)
        rcases Nat.lt_or_eq_of_le (List.countP_mono_left hleft) with hlt | heq
        · exact .left _ _ hlt
        · have hnext : next = [] := by
            refine Decidable.byContradiction fun hnext => ?_
            obtain ⟨k, hk, hfresh, hset⟩ := hsets hnext
            refine absurd heq (Nat.ne_of_lt ?_)
            exact countP_lt_countP hleft (hkeys k hk) (by simp [hset]) (by simp [hfresh])
          subst hnext
          show Prod.Lex _ _ (left f', rest.length) (left f, rest.length + 1)
          rw [show left f' = left f from heq]
          exact .right _ (Nat.lt_succ_self _)
  exact hends (stack, found) hinv

/-- Explorations end where every place has a key that is marked when its successors come to wait,
and where finitely many keys can be reached from finitely many places. -/
theorem exhausts_of_keys {visit : π → σ → Visit π σ} (key : π → κ) (marked : σ → κ → Prop)
    (successors : π → List π)
    (hvisit : ∀ p f next f', visit p f = .go next f' →
      (next = [] ∨ next = successors p ∧ ¬marked f (key p) ∧ marked f' (key p)) ∧
        ∀ k, marked f k → marked f' k)
    (hreach : ∀ stack : List π, ∃ (good : π → Prop) (possible : κ → Prop), Finitely possible ∧
      (∀ p ∈ stack, good p) ∧ ∀ p, good p → ∀ q ∈ successors p, good q ∧ possible (key p)) :
    Exhausts visit := by
  refine ⟨⟨fun stage => ?_⟩⟩
  obtain ⟨stack, found⟩ := stage
  obtain ⟨good, possible, hfinitely, hstack, hgood⟩ := hreach stack
  have hmarks : SetsMarks visit marked (fun stack _ => ∀ p ∈ stack, good p) possible := by
    refine ⟨hfinitely, fun p rest f next f' hinv h => ?_⟩
    obtain ⟨hnext, hmono⟩ := hvisit p f next f' h
    have hgood := hgood p (hinv p (by simp))
    refine ⟨fun q hq => ?_, hmono, fun hne => ?_⟩
    · rcases List.mem_append.mp hq with hq | hq
      · rcases hnext with rfl | ⟨rfl, -⟩
        · simp at hq
        · exact (hgood q hq).1
      · exact hinv q (by simp [hq])
    · rcases hnext with hnil | ⟨rfl, hfresh, hset⟩
      · exact absurd hnil hne
      · obtain ⟨q, hq⟩ := List.exists_mem_of_ne_nil _ hne
        exact ⟨key p, (hgood q hq).2, hfresh, hset⟩
  exact hmarks.acc hstack

end

end UnitRegex
