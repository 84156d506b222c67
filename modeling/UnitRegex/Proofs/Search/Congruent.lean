import UnitRegex.Proofs.Automaton.Constructions
import UnitRegex.Search.Threads

/-!
Simulations of texts that no set of an automaton tells apart. An automaton looks at a text through
its length and its sets only, so that every step is the same on both texts.
-/

namespace UnitRegex

/-- No set of a kind tells two texts of the same length apart. -/
structure Text.Congruent (kind : CharSet → Prop) (x y : Text) : Prop where
  size_eq : y.size = x.size
  any_eq : ∀ set, kind set → ∀ i : Nat, y[i]?.any (set.contains ·) = x[i]?.any (set.contains ·)

theorem Text.Congruent.matchesAt_eq {kind : CharSet → Prop} {x y : Text} (h : x.Congruent kind y)
    {sets : List CharSet} (hsets : ∀ set ∈ sets, kind set) (cursor : Nat) :
    y.matchesAt cursor sets = x.matchesAt cursor sets := by
  induction sets generalizing cursor with
  | nil => rfl
  | cons set rest ih =>
    have hset := h.any_eq set (hsets set List.mem_cons_self) cursor
    have hrest := ih (fun s hs => hsets s (List.mem_cons_of_mem _ hs)) (cursor + 1)
    rw [matchesAt, matchesAt, hset, hrest]

/-- Explorations by the same visits find the same. -/
theorem explore_congr {π σ : Type} {visit visit' : π → σ → Visit π σ} [Exhausts visit]
    [Exhausts visit'] (h : visit = visit') (stack : List π) (found : σ) :
    explore visit stack found = explore visit' stack found := by
  subst h
  rfl

section

variable {kind : CharSet → Prop} {nfa : Nfa} (htests : nfa.Tests kind) {x y : Text}
  (h : x.Congruent kind y)
include htests h

theorem Nfa.holds_congr (cursor : Nat) (guard : Guard) :
    nfa.holds y cursor guard = nfa.holds x cursor guard := by
  cases guard with
  | caret => rfl
  | dollar => simp only [holds, h.size_eq]
  | behind body negated =>
    have hsets : ∀ set ∈ nfa.lookBehinds[body]?.getD [], kind set := by
      cases hbody : nfa.lookBehinds[body]? with
      | none => simp
      | some sets => exact htests.lookBehinds sets (List.mem_of_getElem? hbody)
    simp only [holds, h.matchesAt_eq hsets]
  | ahead body negated =>
    have hany : (nfa.lookAheads[body]?.getD []).any (y.matchesAt cursor) =
        (nfa.lookAheads[body]?.getD []).any (x.matchesAt cursor) := by
      cases hbody : nfa.lookAheads[body]? with
      | none => rfl
      | some branches =>
        have hbranches := htests.lookAheads branches (List.mem_of_getElem? hbody)
        rw [Bool.eq_iff_iff]
        simp only [Option.getD_some, List.any_eq_true]
        apply exists_congr
        intro sets
        apply and_congr_right
        intro hsets
        rw [h.matchesAt_eq (hbranches sets hsets)]
    simp only [holds, hany]

/-- Following a thread leads to the same frontier in both texts. -/
theorem Frontier.add_congr (cursor : Nat) (f : Frontier) (t : Thread) :
    f.add nfa y cursor t = f.add nfa x cursor t := by
  have hbranch (t : Thread) :
      Following.branch nfa y cursor t = Following.branch nfa x cursor t := by
    simp only [Following.branch, nfa.holds_congr htests h]
  have hvisit : Following.visit nfa y cursor = Following.visit nfa x cursor := by
    funext p g
    cases p with
    | setSlot slot value => rfl
    | setCount counter value => rfl
    | follow state => simp only [Following.visit, hbranch]
  rw [add, add, explore_congr hvisit]

theorem Frontier.advance_congr (stop cursor : Nat) (threads : List Thread) (next : Frontier)
    (found : Option Slots) :
    advance nfa y stop cursor threads next found = advance nfa x stop cursor threads next found := by
  induction threads generalizing next found with
  | nil => rfl
  | cons t rest ih =>
    rw [advance, advance]
    cases hs : nfa.state t.state with
    | unit set target =>
      have hset : kind set := by
        have hstate := htests.states t.state
        rwa [hs] at hstate
      simp only [h.any_eq set hset, add_congr htests h, ih]
    | accept => rfl
    | _ => exact ih next found

theorem Nfa.runThreads_congr (start stop : Nat) (anchored : Bool) (cursor : Nat)
    (current spare : Frontier) (found : Option Slots) :
    nfa.runThreads y start stop anchored cursor current spare found =
      nfa.runThreads x start stop anchored cursor current spare found := by
  induction hn : stop - cursor using Nat.strongRecOn generalizing cursor current spare found with
  | _ n ih =>
    rw [runThreads, runThreads.eq_1 nfa x]
    simp only [Frontier.add_congr htests h, Frontier.advance_congr htests h]
    split
    · rfl
    · split
      · exact ih _ (by omega) _ _ _ _ rfl
      · rfl

/-- A simulation finds the same captures in both texts. -/
theorem Nfa.findSlots_congr (start stop : Nat) (anchored : Bool) :
    nfa.findSlots y start stop anchored = nfa.findSlots x start stop anchored := by
  rw [findSlots, findSlots, h.size_eq, nfa.runThreads_congr htests h]

end

end UnitRegex
