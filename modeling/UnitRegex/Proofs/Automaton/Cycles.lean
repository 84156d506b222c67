import Mathlib.Logic.Relation
import UnitRegex.Automaton.Acyclic

/-!
Cycles among the states of an automaton. While the search for them goes on, the open states that
wait on the stack form a path: each leads to all that is pending above it. An open state among the
successors of another one therefore closes a cycle, and a state is closed only behind all of its
successors.
-/

namespace UnitRegex

/-- What is not in the front of a list stands behind it. -/
theorem exists_append_of_notMem {α : Type} {front rest above below : List α} {a : α}
    (ha : a ∉ front) (h : front ++ rest = above ++ a :: below) :
    ∃ above', above = front ++ above' ∧ rest = above' ++ a :: below := by
  rcases List.append_eq_append_iff.mp h with hbehind | ⟨front', hfront, hrest⟩
  · exact hbehind
  · rcases List.cons_eq_append_iff.mp hrest with ⟨rfl, hrest⟩ | ⟨front', rfl, -⟩
    · exact ⟨[], by simpa using hfront.symm, hrest.symm⟩
    · exact absurd (by simp [hfront]) ha

/-- A mark that was not set now was there before. -/
theorem getElem?_of_setIfInBounds {marks : Array Color} {s t : Nat} {new old : Color}
    (hne : new ≠ old) (h : (marks.setIfInBounds s new)[t]? = some old) :
    s ≠ t ∧ marks[t]? = some old := by
  have hother : s ≠ t := by
    rintro rfl
    rw [Array.getElem?_setIfInBounds_self] at h
    split at h
    · exact hne (Option.some.inj h)
    · cases h
  exact ⟨hother, by rwa [Array.getElem?_setIfInBounds_ne hother] at h⟩

namespace Nfa

/-- A transition leads from one state to another, with or without input. -/
def Edge (nfa : Nfa) (s t : Nat) : Prop := t ∈ nfa.successors s

/-- No state that can be reached from a state lies on a cycle. -/
def CycleFree (nfa : Nfa) (start : Nat) : Prop :=
  ∀ s, Relation.ReflTransGen nfa.Edge start s → ¬Relation.TransGen nfa.Edge s s

variable {nfa : Nfa} {s t : Nat}

theorem CycleFree.next (h : nfa.CycleFree s) (ht : t ∈ nfa.successors s) : nfa.CycleFree t :=
  fun u hu => h u (.head ht hu)

theorem not_cycleFree (h : Relation.TransGen nfa.Edge s s) : ¬nfa.CycleFree s :=
  fun hs => hs s .refl h

/-- A cycle through a state lies behind one of its successors too. -/
theorem cycleFree_of_successors (h : ∀ t ∈ nfa.successors s, nfa.CycleFree t) :
    nfa.CycleFree s := by
  intro u hu hcycle
  rcases hu.cases_head with rfl | ⟨t, ht, hu⟩
  · obtain ⟨t, ht, hback⟩ := Relation.TransGen.head'_iff.mp hcycle
    exact h t ht _ hback hcycle
  · exact h t ht u hu hcycle

theorem cycleFree_of_size_le (h : nfa.size ≤ s) : nfa.CycleFree s := by
  have hnode : nfa.nodes[s]? = none := Array.getElem?_eq_none h
  apply cycleFree_of_successors
  simp [successors, state, hnode, NfaState.successors]

/-- What the search knows while visits are pending. -/
structure Traverses (nfa : Nfa) (marks : Array Color) (stack : List (Nat × Bool)) : Prop where
  size : marks.size = nfa.size
  closed : ∀ s : Nat, marks[s]? = some .closed → nfa.CycleFree s
  opened : ∀ s : Nat, marks[s]? = some .opened → (s, true) ∈ stack
  /-- An open state leads to whatever is pending above it. -/
  leads : stack.Pairwise fun v w => w.2 = true → Relation.TransGen nfa.Edge w.1 v.1
  /-- The successors of an open state are pending above it as long as it is not known that no cycle
  lies behind them. -/
  awaits : ∀ above s below, stack = above ++ (s, true) :: below → ∀ t ∈ nfa.successors s,
    nfa.CycleFree t ∨ ∃ done, (t, done) ∈ above

namespace Traverses

variable {marks marks' : Array Color} {stack : List (Nat × Bool)} {done : Bool}

theorem start (nfa : Nfa) (s : Nat) :
    nfa.Traverses (Array.replicate nfa.size .fresh) [(s, false)] where
  size := Array.size_replicate
  closed t ht := by simp [Array.getElem?_replicate] at ht
  opened t ht := by simp [Array.getElem?_replicate] at ht
  leads := List.pairwise_singleton _ _
  awaits above t below h := by
    obtain ⟨rfl, h⟩ | ⟨above, rfl, h⟩ := List.cons_eq_append_iff.mp h
    · cases h
    · simp at h

/-- A visit ends at a state behind which no cycle lies. -/
theorem settle (h : nfa.Traverses marks ((s, done) :: stack)) (hs : nfa.CycleFree s)
    (hsize : marks'.size = marks.size)
    (hclosed : ∀ t : Nat, marks'[t]? = some .closed → t = s ∨ marks[t]? = some .closed)
    (hopened : ∀ t : Nat, marks'[t]? = some .opened →
      marks[t]? = some .opened ∧ (t, true) ≠ (s, done)) :
    nfa.Traverses marks' stack where
  size := hsize.trans h.size
  closed t ht := (hclosed t ht).elim (· ▸ hs) (h.closed t)
  opened t ht := by
    obtain ⟨ht, hne⟩ := hopened t ht
    exact (List.mem_cons.mp (h.opened t ht)).resolve_left hne
  leads := h.leads.tail
  awaits above u below hstack t ht := by
    rcases h.awaits ((s, done) :: above) u below (by rw [hstack]; rfl) t ht with hfree | ⟨e, he⟩
    · exact .inl hfree
    · rcases List.mem_cons.mp he with heq | he
      · obtain ⟨rfl, -⟩ := Prod.mk.inj heq
        exact .inl hs
      · exact .inr ⟨e, he⟩

/-- A state is closed when it comes back to the top: its successors have been visited. -/
theorem close (h : nfa.Traverses marks ((s, true) :: stack)) :
    nfa.CycleFree s ∧ nfa.Traverses (marks.setIfInBounds s .closed) stack := by
  have hs : nfa.CycleFree s := by
    apply cycleFree_of_successors
    intro t ht
    simpa using h.awaits [] s stack rfl t ht
  refine ⟨hs, h.settle hs Array.size_setIfInBounds (fun t ht => ?_) (fun t ht => ?_)⟩
  · by_cases heq : s = t
    · exact .inl heq.symm
    · exact .inr (by rwa [Array.getElem?_setIfInBounds_ne heq] at ht)
  · obtain ⟨hne, hmark⟩ := getElem?_of_setIfInBounds (by decide) ht
    exact ⟨hmark, fun heq => hne (Prod.mk.inj heq).1.symm⟩

/-- A state that is neither fresh nor open is known already, or it does not exist. -/
theorem skip (h : nfa.Traverses marks ((s, false) :: stack)) (hfresh : marks[s]? ≠ some .fresh)
    (hopened : marks[s]? ≠ some .opened) : nfa.CycleFree s ∧ nfa.Traverses marks stack := by
  have hs : nfa.CycleFree s := by
    cases hmark : marks[s]? with
    | none => exact cycleFree_of_size_le (h.size ▸ Array.getElem?_eq_none_iff.mp hmark)
    | some mark =>
      cases mark with
      | fresh => exact absurd hmark hfresh
      | opened => exact absurd hmark hopened
      | closed => exact h.closed s hmark
  exact ⟨hs, h.settle hs rfl (fun _ => .inr) fun t ht => ⟨ht, by simp⟩⟩

/-- An open state leads to a state whose visit begins. -/
theorem leads_of_opened (h : nfa.Traverses marks ((s, false) :: stack))
    (ht : marks[t]? = some .opened) : Relation.TransGen nfa.Edge t s := by
  have hmem : (t, true) ∈ stack := (List.mem_cons.mp (h.opened t ht)).resolve_left (by simp)
  exact (List.pairwise_cons.mp h.leads).1 _ hmem rfl

/-- A successor of a state that is being opened may be open itself. -/
theorem cycle_of_opened (h : nfa.Traverses marks ((s, false) :: stack)) (ht : t ∈ nfa.successors s)
    (hopened : (marks.setIfInBounds s .opened)[t]? = some .opened) :
    Relation.TransGen nfa.Edge s s := by
  by_cases heq : s = t
  · subst heq
    exact .single ht
  · rw [Array.getElem?_setIfInBounds_ne heq] at hopened
    exact .head ht (h.leads_of_opened hopened)

/-- A successor that is not open is known, or its visit is still to come. -/
theorem known_or_fresh (h : nfa.Traverses marks ((s, false) :: stack))
    (hopened : (marks.setIfInBounds s .opened)[t]? ≠ some .opened) :
    nfa.CycleFree t ∨ (marks.setIfInBounds s .opened)[t]? = some .fresh := by
  cases hmark : (marks.setIfInBounds s .opened)[t]? with
  | none =>
    have hsize : nfa.size ≤ t := by simpa [h.size] using hmark
    exact .inl (cycleFree_of_size_le hsize)
  | some mark =>
    cases mark with
    | fresh => exact .inr rfl
    | opened => exact absurd hmark hopened
    | closed => exact .inl (h.closed t (getElem?_of_setIfInBounds (by decide) hmark).2)

/-- A state is opened, and visits of its successors are pending above it, in any order. -/
theorem enter {visits : List (Nat × Bool)} (h : nfa.Traverses marks ((s, false) :: stack))
    (hvisits : ∀ v ∈ visits, v.1 ∈ nfa.successors s ∧ v.2 = false)
    (hawaits : ∀ t ∈ nfa.successors s, nfa.CycleFree t ∨ (t, false) ∈ visits) :
    nfa.Traverses (marks.setIfInBounds s .opened) (visits ++ (s, true) :: stack) where
  size := Array.size_setIfInBounds.trans h.size
  closed t ht := h.closed t (getElem?_of_setIfInBounds (by decide) ht).2
  opened t ht := by
    by_cases heq : s = t
    · simp [heq]
    · rw [Array.getElem?_setIfInBounds_ne heq] at ht
      have hmem : (t, true) ∈ stack := (List.mem_cons.mp (h.opened t ht)).resolve_left (by simp)
      simp [hmem]
  leads := by
    obtain ⟨habove, hrest⟩ := List.pairwise_cons.mp h.leads
    rw [List.pairwise_append]
    refine ⟨?_, List.pairwise_cons.mpr ⟨habove, hrest⟩, fun v hv w hw hdone => ?_⟩
    · refine List.pairwise_of_forall_mem_list fun v hv w hw hdone => ?_
      simp [(hvisits w hw).2] at hdone
    · have hedge : nfa.Edge s v.1 := (hvisits v hv).1
      rcases List.mem_cons.mp hw with rfl | hw
      · exact .single hedge
      · exact .tail (habove w hw hdone) hedge
  awaits above u below hstack t ht := by
    have hnot : (u, true) ∉ visits := fun hu => by simpa using (hvisits _ hu).2
    obtain ⟨above, rfl, hrest⟩ := exists_append_of_notMem hnot hstack
    rcases List.cons_eq_append_iff.mp hrest with ⟨rfl, hself⟩ | ⟨above, rfl, rfl⟩
    · obtain ⟨rfl, -⟩ := Prod.mk.inj (List.cons.inj hself).1
      exact (hawaits t ht).imp_right fun hmem => ⟨false, by simp [hmem]⟩
    · rcases h.awaits ((s, false) :: above) u below rfl t ht with hfree | ⟨done, hmem⟩
      · exact .inl hfree
      · right
        rcases List.mem_cons.mp hmem with heq | hmem
        · -- What stood for the visit of the state is the open state itself now.
          obtain ⟨rfl, -⟩ := Prod.mk.inj heq
          exact ⟨true, by simp⟩
        · exact ⟨done, by simp [hmem]⟩

end Traverses

/-- The search finds all that is pending free of cycles or meets a cycle behind it. -/
theorem acyclicAlong_iff {marks : Array Color} {stack : List (Nat × Bool)}
    (h : nfa.Traverses marks stack) :
    nfa.acyclicAlong marks stack = true ↔ ∀ v ∈ stack, nfa.CycleFree v.1 := by
  fun_induction Nfa.acyclicAlong nfa marks stack with
  | case1 => simp
  | case2 marks s stack ih =>
    obtain ⟨hs, h⟩ := h.close
    rw [ih h, List.forall_mem_cons]
    exact (and_iff_right hs).symm
  | case3 marks s stack hmark =>
    have hcycle := h.leads_of_opened hmark
    simp [not_cycleFree hcycle]
  | case4 marks s stack hmark entered hany =>
    obtain ⟨t, ht, hopened⟩ := List.any_eq_true.mp hany
    have hcycle := h.cycle_of_opened ht (of_decide_eq_true hopened)
    simp [not_cycleFree hcycle]
  | case5 marks s stack hmark entered hany next ih =>
    have hback : ∀ t ∈ nfa.successors s, entered[t]? ≠ some .opened := by
      simpa using hany
    have hvisits : ∀ v ∈ (next.map (·, false)).reverse, v.1 ∈ nfa.successors s ∧ v.2 = false := by
      rintro ⟨t, done⟩ hv
      simp only [next, List.mem_reverse, List.mem_map, List.mem_filter] at hv
      obtain ⟨t, ⟨ht, -⟩, rfl, rfl⟩ := hv
      exact ⟨ht, rfl⟩
    have hawaits : ∀ t ∈ nfa.successors s,
        nfa.CycleFree t ∨ (t, false) ∈ (next.map (·, false)).reverse := by
      intro t ht
      exact (h.known_or_fresh (hback t ht)).imp_right fun hfresh => by
        simpa [next] using ⟨ht, hfresh⟩
    rw [ih (h.enter hvisits hawaits)]
    simp only [List.forall_mem_append, List.forall_mem_cons]
    constructor
    · exact fun hall => hall.2
    · exact fun hall => ⟨fun v hv => hall.1.next (hvisits v hv).1, hall⟩
  | case6 marks s stack hopened hfresh ih =>
    obtain ⟨hs, h⟩ := h.skip hfresh hopened
    rw [ih h, List.forall_mem_cons]
    exact (and_iff_right hs).symm

/-- The search answers yes iff no cycle can be reached. -/
theorem acyclicFrom_iff (nfa : Nfa) (start : Nat) :
    nfa.acyclicFrom start = true ↔
      ∀ s, Relation.ReflTransGen nfa.Edge start s → ¬Relation.TransGen nfa.Edge s s := by
  rw [acyclicFrom, acyclicAlong_iff (.start nfa start), List.forall_mem_singleton]
  rfl

end Nfa
end UnitRegex
