import Mathlib.Data.List.Forall2
import Mathlib.Data.List.Lex
import UnitRegex.Proofs.Automaton.Fragments

/-!
Paths to a state in order of priority. A path is the list of the choices made on it up to its first
arrival, and of two paths the one that is less in dictionary order comes first. A stretch of states
that is only left towards one state determines all paths to it.
-/

namespace UnitRegex

namespace Nfa

/-- A path from one configuration to the first one at a state, by the number of the way taken at
each step. -/
inductive Reaches (nfa : Nfa) (text : Text) (goal : Nat) :
    Configuration → List Nat → Configuration → Prop
  | stop {x : Configuration} (h : x.state = goal) : Reaches nfa text goal x [] x
  | step {x y z : Configuration} {choice : Nat} {choices : List Nat} (hgoal : x.state ≠ goal)
    (hstep : (nfa.steps text text.size x)[choice]? = some y)
    (hrest : Reaches nfa text goal y choices z) : Reaches nfa text goal x (choice :: choices) z

/-- All paths to a state, a preferred one before the others. -/
structure PathsTo (nfa : Nfa) (text : Text) (goal : Nat) (x : Configuration)
    (paths : List (List Nat × Configuration)) : Prop where
  sorted : paths.Pairwise fun a b => List.Lex (· < ·) a.1 b.1
  mem_iff : ∀ choices z, (choices, z) ∈ paths ↔ nfa.Reaches text goal x choices z

/-- The positions and captures with which all paths arrive at a state, in order of priority. -/
def Arrives (nfa : Nfa) (text : Text) (goal : Nat) (x : Configuration) (ends : List MatchState) :
    Prop :=
  ∃ paths, nfa.PathsTo text goal x paths ∧ paths.map (·.2.matchState) = ends

/-- The paths over some ways, one way after the other. -/
def overWays (parts : List (List (List Nat × Configuration))) : List (List Nat × Configuration) :=
  parts.zipIdx.flatMap fun part => part.1.map fun path => (part.2 :: path.1, path.2)

theorem map_snd_overWays (parts : List (List (List Nat × Configuration))) :
    (overWays parts).map (·.2) = parts.flatten.map (·.2) := by
  conv_rhs => rw [← List.zipIdx_map_fst 0 parts, ← List.flatMap_def, List.map_flatMap]
  simp only [overWays, List.map_flatMap, List.map_map, Function.comp_def]

variable {nfa : Nfa} {text : Text} {goal : Nat} {x : Configuration}

namespace PathsTo

variable {paths others : List (List Nat × Configuration)}

theorem unique (h : nfa.PathsTo text goal x paths) (h' : nfa.PathsTo text goal x others) :
    paths = others := by
  have hnodup : ∀ {l : List (List Nat × Configuration)},
      l.Pairwise (fun a b => List.Lex (· < ·) a.1 b.1) → l.Nodup := by
    intro l hl
    refine hl.imp ?_
    rintro a b hlt rfl
    exact asymm hlt hlt
  have hperm : paths.Perm others := by
    rw [List.perm_ext_iff_of_nodup (hnodup h.sorted) (hnodup h'.sorted)]
    exact fun path => (h.mem_iff _ _).trans (h'.mem_iff _ _).symm
  refine hperm.eq_of_pairwise (fun a b _ _ hab hba => ?_) h.sorted h'.sorted
  exact absurd hba (asymm hab)

theorem stop (h : x.state = goal) : nfa.PathsTo text goal x [([], x)] where
  sorted := List.pairwise_singleton _ _
  mem_iff choices z := by
    rw [List.mem_singleton, Prod.mk.injEq]
    constructor
    · rintro ⟨rfl, rfl⟩
      exact .stop h
    · intro hpath
      cases hpath with
      | stop _ => exact ⟨rfl, rfl⟩
      | step hne _ _ => exact absurd h hne

/-- The paths from a configuration lead over the ways on from it, one way after the other. -/
theorem step (hgoal : x.state ≠ goal) {parts : List (List (List Nat × Configuration))}
    (h : List.Forall₂ (nfa.PathsTo text goal) (nfa.steps text text.size x) parts) :
    nfa.PathsTo text goal x (overWays parts) := by
  obtain ⟨hlength, hget⟩ := List.forall₂_iff_get.mp h
  have hpart : ∀ {i : Nat} {part}, parts[i]? = some part →
      ∃ y, (nfa.steps text text.size x)[i]? = some y ∧ nfa.PathsTo text goal y part := by
    intro i part hi
    obtain ⟨hlt, rfl⟩ := List.getElem?_eq_some_iff.mp hi
    have hlt' : i < (nfa.steps text text.size x).length := by omega
    exact ⟨_, List.getElem?_eq_getElem hlt', hget i hlt' hlt⟩
  constructor
  · rw [overWays, List.pairwise_flatMap]
    constructor
    · rintro ⟨part, i⟩ hi
      obtain ⟨y, -, hpaths⟩ := hpart (List.mem_zipIdx_iff_getElem?.mp hi)
      rw [List.pairwise_map]
      exact hpaths.sorted.imp .cons
    · rw [List.pairwise_iff_getElem]
      intro i j hi hj hij a ha b hb
      simp only [List.getElem_zipIdx, Nat.zero_add] at ha hb
      obtain ⟨a', -, rfl⟩ := List.mem_map.mp ha
      obtain ⟨b', -, rfl⟩ := List.mem_map.mp hb
      exact .rel hij
  · intro choices z
    simp only [overWays, List.mem_flatMap, List.mem_map, Prod.mk.injEq, Prod.exists,
      List.mem_zipIdx_iff_getElem?]
    constructor
    · rintro ⟨part, i, hi, rest, _, hmem, rfl, rfl⟩
      obtain ⟨y, hy, hpaths⟩ := hpart hi
      exact .step hgoal hy ((hpaths.mem_iff _ _).mp hmem)
    · intro hpath
      cases hpath with
      | stop hstate => exact absurd hstate hgoal
      | @step _ y _ i rest _ hy hrest =>
        obtain ⟨hlt, rfl⟩ := List.getElem?_eq_some_iff.mp hy
        have hlt' : i < parts.length := by omega
        exact ⟨parts[i], i, List.getElem?_eq_getElem hlt', rest, z,
          ((hget i hlt hlt').mem_iff _ _).mpr hrest, rfl, rfl⟩

end PathsTo

/-- The list of arrivals is determined by the configuration that the paths start from. -/
theorem Arrives.unique {ends others : List MatchState} (h : nfa.Arrives text goal x ends)
    (h' : nfa.Arrives text goal x others) : ends = others := by
  obtain ⟨paths, hpaths, rfl⟩ := h
  obtain ⟨paths', hpaths', rfl⟩ := h'
  rw [hpaths.unique hpaths']

/-- Where all that some configurations lead to stands at a state outside of a stretch, the paths to
this state lead there in the same order. -/
theorem Unfolds.exists_pathsTo {lo hi : Nat} {before after : List Configuration}
    (h : nfa.Unfolds text lo hi before after) (hgoal : goal < lo ∨ hi ≤ goal)
    (hafter : ∀ y ∈ after, y.state = goal) :
    ∃ parts, List.Forall₂ (nfa.PathsTo text goal) before parts ∧
      parts.flatten.map (·.2) = after := by
  induction h with
  | nil => exact ⟨[], .nil, rfl⟩
  | leave x _ ih =>
    obtain ⟨parts, hparts, rfl⟩ := ih fun y hy => hafter y (by simp [hy])
    exact ⟨[([], x)] :: parts, .cons (.stop (hafter x (by simp))) hparts, rfl⟩
  | step hlo hhi _ _ _ ihways ih =>
    obtain ⟨ways, hways, rfl⟩ := ihways fun y hy => hafter y (by simp [hy])
    obtain ⟨parts, hparts, rfl⟩ := ih fun y hy => hafter y (by simp [hy])
    refine ⟨_ :: parts, .cons (.step (by omega) hways) hparts, ?_⟩
    rw [List.flatten_cons, List.map_append, map_snd_overWays]

/-- A fragment with one entry determines the arrivals at the state behind it. -/
theorem Yields.arrives {clo chi lo hi next : Nat} {y : Configuration} {states : List MatchState}
    (h : nfa.Yields text lo hi (y.Leaves text clo chi next) [x] states)
    (hnext : next < lo ∨ hi ≤ next) : nfa.Arrives text next x states := by
  obtain ⟨after, rfl, hleaves, hunfolds⟩ := h
  obtain ⟨parts, hparts, rfl⟩ := hunfolds.exists_pathsTo hnext fun z hz => (hleaves z hz).state
  obtain ⟨paths, others, hpaths, hothers, rfl⟩ := List.forall₂_cons_left_iff.mp hparts
  obtain rfl := List.forall₂_nil_left_iff.mp hothers
  refine ⟨paths, hpaths, ?_⟩
  simp

end Nfa

end UnitRegex
