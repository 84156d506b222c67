import UnitRegex.Proofs.Matching.Outcomes

/-!
Machines against the meaning of a pattern. A machine works on lists of items in order of preference,
and every item stands for a state. That some items yield a list of states is composed in the same
way as the behaviors of a pattern are.
-/

namespace UnitRegex

/-- Lists of items may be replaced by others, one after the other and side by side. -/
structure Unfolding {α : Type} (R : List α → List α → Prop) : Prop where
  refl : ∀ l, R l l
  trans : ∀ {a b c}, R a b → R b c → R a c
  append : ∀ {a a' b b'}, R a a' → R b b' → R (a ++ b) (a' ++ b')

/-- Some items may be replaced by ones with a property that stand for a list of states. -/
def Yields {α : Type} (R : List α → List α → Prop) (view : α → MatchState) (Q : α → Prop)
    (before : List α) (states : List MatchState) : Prop :=
  ∃ after : List α, after.map view = states ∧ (∀ t ∈ after, Q t) ∧ R before after

theorem Yields.imp {α : Type} {R : List α → List α → Prop} {view : α → MatchState}
    {P Q : α → Prop} {before : List α} {states : List MatchState}
    (h : Yields R view P before states) (himp : ∀ t, P t → Q t) :
    Yields R view Q before states := by
  obtain ⟨after, hmap, hP, hunfold⟩ := h
  exact ⟨after, hmap, fun t ht => himp t (hP t ht), hunfold⟩

/-- Every item that is yielded stands for one of the states. -/
theorem Yields.mem {α : Type} {R : List α → List α → Prop} {view : α → MatchState}
    {Q : α → Prop} {before : List α} {states : List MatchState}
    (h : Yields R view Q before states) :
    Yields R view (fun t => Q t ∧ view t ∈ states) before states := by
  obtain ⟨after, rfl, hQ, hunfold⟩ := h
  exact ⟨after, rfl, fun t ht => ⟨hQ t ht, List.mem_map_of_mem ht⟩, hunfold⟩

/-- A machine that may do more yields as much. -/
theorem Yields.mono {α : Type} {R S : List α → List α → Prop} {view : α → MatchState}
    {Q : α → Prop} {before : List α} {states : List MatchState}
    (h : Yields R view Q before states) (himp : ∀ a b, R a b → S a b) :
    Yields S view Q before states := by
  obtain ⟨after, hmap, hQ, hunfold⟩ := h
  exact ⟨after, hmap, hQ, himp _ _ hunfold⟩

namespace Unfolding

variable {α : Type} {R : List α → List α → Prop} {view : α → MatchState} {P Q : α → Prop}
  {before middle other : List α} {states states' : List MatchState}

theorem nil (hR : Unfolding R) : Yields R view Q [] [] := ⟨[], rfl, by simp, hR.refl []⟩

theorem single (hR : Unfolding R) {s : α} (h : Q s) : Yields R view Q [s] [view s] :=
  ⟨[s], rfl, by simpa using h, hR.refl [s]⟩

theorem unfold (hR : Unfolding R) (h : R before middle) (hy : Yields R view Q middle states) :
    Yields R view Q before states := by
  obtain ⟨after, hmap, hQ, hunfold⟩ := hy
  exact ⟨after, hmap, hQ, hR.trans h hunfold⟩

theorem join (hR : Unfolding R) (h : Yields R view Q before states)
    (h' : Yields R view Q other states') :
    Yields R view Q (before ++ other) (states ++ states') := by
  obtain ⟨after, hmap, hQ, hunfold⟩ := h
  obtain ⟨after', hmap', hQ', hunfold'⟩ := h'
  refine ⟨after ++ after', by rw [List.map_append, hmap, hmap'], ?_, hR.append hunfold hunfold'⟩
  intro t ht
  rcases List.mem_append.mp ht with ht | ht
  · exact hQ t ht
  · exact hQ' t ht

/-- Items that each yield what a behavior makes of their states do so together. -/
theorem flatMap (hR : Unfolding R) {f : Behavior}
    (h : ∀ t ∈ before, Yields R view Q [t] (f (view t))) :
    Yields R view Q before ((before.map view).flatMap f) := by
  induction before with
  | nil => exact hR.nil
  | cons t rest ih =>
    have hrest := ih fun u hu => h u (by simp [hu])
    exact hR.join (h t (by simp)) hrest

theorem bind (hR : Unfolding R) {f : Behavior} (h : Yields R view P before states)
    (hnext : ∀ t, P t → Yields R view Q [t] (f (view t))) :
    Yields R view Q before (states.flatMap f) := by
  obtain ⟨middle, rfl, hP, hunfold⟩ := h
  exact hR.unfold hunfold (hR.flatMap fun t ht => hnext t (hP t ht))

end Unfolding

end UnitRegex
