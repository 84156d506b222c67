import UnitRegex.Proofs.Alphabet.Algebra
import UnitRegex.Proofs.Alphabet.CaseTable
import UnitRegex.Proofs.Automaton.Constructions
import UnitRegex.Proofs.Table.Exact

/-!
Sets in tables. Since a set has one representation only, tables that compare representations compare
members: an automaton keeps no body twice, and the states of a subset construction lead to different
states by sets that have no member in common.
-/

namespace UnitRegex

/-! ### Tables of bodies -/

/-- A body is noted unless it is there. -/
theorem Bodies.toList_add_eq_iff {α : Type} [Ord α] [Std.TransOrd α] [Std.LawfulEqOrd α] {a : α}
    {b : Bodies α} : (b.add a).2.toList = b.toList ↔ a ∈ b.toList := by
  rcases b.toList_add a with ⟨hmem, h⟩ | ⟨hnew, h⟩
  · exact iff_of_true h hmem
  · exact iff_of_false (by simp [h]) hnew

/-- A table of elements that some relation compares: what is noted is found again at its index,
nothing is lost, and the table stays as it is if something in it is like the element. -/
structure NotesOnce {α : Type} [Ord α] [Std.TransOrd α] [Std.LawfulEqOrd α]
    (like : α → α → Prop) : Prop where
  found : ∀ (a : α) (b : Bodies α),
    ∃ x, (b.add a).2.toList[(b.add a).1]? = some x ∧ like x a
  kept : ∀ (a : α) (b : Bodies α), b.toList <+: (b.add a).2.toList
  unchanged : ∀ (a : α) (b : Bodies α),
    (b.add a).2.toList = b.toList ↔ ∃ x ∈ b.toList, like x a

theorem NotesOnce.of_eq {α : Type} [Ord α] [Std.TransOrd α] [Std.LawfulEqOrd α]
    {like : α → α → Prop} (h : ∀ a b, like a b ↔ a = b) : NotesOnce like where
  found a b := ⟨a, b.getElem?_add a, (h a a).mpr rfl⟩
  kept a b := (b.add_spec a).2.1
  unchanged a b := by
    rw [Bodies.toList_add_eq_iff]
    simp only [h, exists_eq_right]

/-- No two bodies that an automaton looks for have the same members, place by place. -/
structure Nfa.BodiesDiffer (p : Pattern) (config : Config) (direction : Direction) : Prop where
  behinds : ∀ nfa, Nfa.build ⟨p, true⟩ config direction = .ok nfa →
    nfa.lookBehinds.Pairwise fun a b => ¬CharSet.SameMembers a b
  aheads : ∀ nfa, Nfa.build ⟨p, true⟩ config direction = .ok nfa →
    nfa.lookAheads.Pairwise fun a b => ¬List.Forall₂ CharSet.SameMembers a b

theorem Nfa.bodiesDiffer (p : Pattern) (config : Config) (direction : Direction) :
    BodiesDiffer p config direction where
  behinds _ h := (nodup_bodies h).1.imp fun hne hsame => hne (CharSet.sameMembers_iff.mp hsame)
  aheads _ h :=
    (nodup_bodies h).2.imp fun hne hsame => hne (CharSet.forall₂_sameMembers_iff.mp hsame)

/-! ### Tables of states -/

namespace Powerset

section

variable {κ : Type} {view : Powerset κ} {initial : List κ} {limit : Nat}

/-- Each set by which a state is left leads to another state. -/
def LeavesOnce (s : TableState) : Prop := (s.edges.map (·.2)).Nodup

theorem leavesOnce_stateOf {key : κ} {groups : List (Nat × List Interval)}
    (h : (groups.map Prod.fst).Nodup) (id : Nat) : LeavesOnce (view.stateOf id key groups) := by
  simpa [LeavesOnce, stateOf, Function.comp_def] using h

theorem Exact.coherent {dfa : Dfa} {keys : Array κ} (h : view.Exact initial dfa keys) :
    ∀ s ∈ dfa.states, Coherent s := by
  intro s hs
  obtain ⟨i, hi, rfl⟩ := Array.mem_iff_getElem.mp hs
  have hsize : dfa.states.size = keys.size := h.size
  have hstate := (h.state i _ (Array.getElem?_eq_getElem (hsize ▸ hi))).coherent
  rwa [Dfa.state, Array.getElem?_eq_getElem hi, Option.getD_some] at hstate

variable [BEq κ] [Hashable κ]

theorem nodup_edges {key : κ} {table after : KeyNumbers κ}
    {groups groups' : List (Nat × List Interval)} {bounds : List Nat}
    (hgroups : (groups.map Prod.fst).Nodup)
    (h : view.edges limit key table groups bounds = .ok (groups', after)) :
    (groups'.map Prod.fst).Nodup := by
  fun_induction edges view limit key table groups bounds with
  | case1 table groups lo hi rest piece next hdead ih => exact ih hgroups h
  | case2 => cases h
  | case3 table groups lo hi rest piece next hlive id numbered hnumber ih =>
    exact ih (nodup_addPiece hgroups id piece) h
  | case4 =>
    cases h
    exact hgroups

theorem leavesOnce_of_tabulateFrom {fuel : Nat} {table : KeyNumbers κ}
    {states states' : Array TableState} (hstates : ∀ s ∈ states, LeavesOnce s)
    (h : view.tabulateFrom limit fuel table states = .ok states') :
    ∀ s ∈ states', LeavesOnce s := by
  induction fuel generalizing table states with
  | zero =>
    obtain rfl := Except.ok.inj h
    exact hstates
  | succ fuel ih =>
    unfold tabulateFrom at h
    split at h
    · obtain rfl := Except.ok.inj h
      exact hstates
    · rename_i key hkey
      split at h
      · cases h
      · rename_i groups after hedges
        refine ih (forall_mem_push hstates ?_) h
        exact leavesOnce_stateOf (nodup_edges (by simp) hedges) _

theorem leavesOnce_of_tabulate {maxStates : Nat} {dfa : Dfa}
    (h : view.tabulate initial maxStates = .ok dfa) : ∀ s ∈ dfa.states, LeavesOnce s := by
  unfold tabulate at h
  dsimp only at h
  split at h
  · cases h
  · split at h
    · cases h
    · rename_i states hstates
      obtain rfl := Except.ok.inj h
      exact leavesOnce_of_tabulateFrom (by simp) hstates

/-- The states of a table are left by sets that have no member in common and lead to different
states, and the shortcuts of a state are what its sets tell. -/
structure Separates (view : Powerset κ) (initial : List κ) (maxStates : Nat) : Prop where
  coherent : ∀ dfa, view.tabulate initial maxStates = .ok dfa → ∀ s ∈ dfa.states, Coherent s
  leavesOnce : ∀ dfa, view.tabulate initial maxStates = .ok dfa → ∀ s ∈ dfa.states, LeavesOnce s

theorem TabulatesExactly.separates {maxStates : Nat}
    (h : view.TabulatesExactly initial maxStates) : view.Separates initial maxStates where
  coherent dfa hdfa := by
    obtain ⟨keys, hexact⟩ := h.exact dfa hdfa
    exact hexact.coherent
  leavesOnce _ := leavesOnce_of_tabulate

end

end Powerset

/-- Sets of code units are a Boolean algebra with one representation for each of its elements, and
the tables that compare representations neither confuse nor repeat anything. -/
theorem CharSet.canonical_algebra :
    (∀ l : List Interval, (ofIntervals l).Describes fun c => ∃ r ∈ l, c ∈ r) ∧
      (∀ s t : CharSet,
        (s.union t).Describes (fun c => s.contains c = true ∨ t.contains c = true) ∧
        (s.inter t).Describes (fun c => s.contains c = true ∧ t.contains c = true) ∧
        (s.diff t).Describes (fun c => s.contains c = true ∧ ¬t.contains c = true)) ∧
      (∀ s : CharSet,
        s.complement.Describes (fun c => ¬s.contains c = true) ∧
        (∀ unicode, (s.caseClosure unicode).Describes fun c =>
          ∃ m, s.contains m = true ∧ canonicalUnit unicode m = canonicalUnit unicode c) ∧
        s.Describes (s.contains · = true) ∧ s.size = allUnits.countP s.contains) ∧
      (∀ s t : CharSet, s = t ↔ ∀ c, s.contains c = t.contains c) ∧
      NotesOnce SameMembers ∧ NotesOnce (List.Forall₂ SameMembers) ∧
      (∀ p config direction, Nfa.BodiesDiffer p config direction) ∧
      ∀ nfa paths maxStates,
        (ForwardSubset.powerset nfa).Separates (ForwardSubset.initial nfa) maxStates ∧
        (BackwardSubset.powerset nfa).Separates (BackwardSubset.initial nfa) maxStates ∧
        (PathSubset.powerset paths).Separates [PathSubset.initial paths] maxStates := by
  refine ⟨fun l => .of_contains fun _ => contains_ofIntervals,
    fun s t => ⟨.of_contains fun c => ?_, .of_contains fun c => ?_, .of_contains fun c => ?_⟩,
    fun s => ⟨.of_contains fun c => ?_, fun unicode => .of_contains fun c => ?_,
      .of_contains fun _ => Iff.rfl, s.size_eq_countP⟩,
    fun _ _ => eq_iff_contains, .of_eq fun _ _ => sameMembers_iff,
    .of_eq fun _ _ => forall₂_sameMembers_iff, Nfa.bodiesDiffer, fun nfa paths maxStates => ?_⟩
  · rw [contains_union, Bool.or_eq_true]
  · rw [contains_inter, Bool.and_eq_true]
  · rw [contains_diff, Bool.and_eq_true, Bool.not_eq_true, Bool.not_eq_true']
  · rw [contains_complement, Bool.not_eq_true, Bool.not_eq_true']
  · exact (ClosesUnder.of_contains fun _ _ => contains_caseClosure).contains_iff s c
  · exact ⟨(Powerset.tabulatesExactly (ForwardSubset.respects nfa) maxStates).separates,
      (Powerset.tabulatesExactly (BackwardSubset.respects nfa) maxStates).separates,
      (Powerset.tabulatesExactly (PathSubset.respects paths) maxStates).separates⟩

end UnitRegex
