import UnitRegex.Proofs.Search.Congruent
import UnitRegex.Proofs.Table.Exact

/-!
Walks over texts that no set of an automaton tells apart. Units that no set tells apart lead from a
key to the same key, so a state goes to the same state on them, and they lie in its loop together.
Two walks that start at the same state pass the same states at the same positions.
-/

namespace UnitRegex

section

variable {kind : CharSet → Prop} {nfa : Nfa}

/-- An open look-ahead tests units against sets of its body. -/
theorem OpenLook.kind_of_mem_nextSets (htests : nfa.Tests kind) {look : OpenLook} {set : CharSet}
    (hset : set ∈ look.nextSets nfa) : kind set := by
  obtain ⟨⟨sets, i⟩, hlive, hget⟩ := List.mem_filterMap.mp hset
  have hsets : sets ∈ nfa.branches look.body.toNat := List.mem_of_getElem? (mem_live.mp hlive).1
  unfold Nfa.branches at hsets
  cases hbody : nfa.lookAheads[look.body.toNat]? with
  | none => simp [hbody] at hsets
  | some branches =>
    rw [hbody, Option.getD_some] at hsets
    exact htests.lookAheads branches (List.mem_of_getElem? hbody) sets hsets set
      (List.mem_of_getElem? hget)

namespace ForwardSubset

/-- A forward subset tests units against sets of the automaton. -/
theorem kind_of_mem_nextSets (htests : nfa.Tests kind) {key : ForwardSubset} {set : CharSet}
    (hset : set ∈ nextSets nfa key) : kind set := by
  have hlooks {looks : List OpenLook} (hset : set ∈ looks.flatMap (·.nextSets nfa)) :
      kind set := by
    obtain ⟨look, -, hset⟩ := List.mem_flatMap.mp hset
    exact OpenLook.kind_of_mem_nextSets htests hset
  unfold nextSets at hset
  rcases List.mem_append.mp hset with hset | hset
  · obtain ⟨e, -, hset⟩ := List.mem_flatMap.mp hset
    cases e with
    | thread state counts looks =>
      rcases List.mem_append.mp hset with hset | hset
      · have hstate := htests.states state
        cases hs : nfa.state state with
        | unit only next =>
          simp only [hs, List.mem_singleton] at hset
          rw [hs] at hstate
          exact hset ▸ hstate
        | _ => simp [hs] at hset
      · exact hlooks hset
    | unconfirmed delay looks => exact hlooks hset
    | atEnd => cases hset
  · split at hset
    · obtain ⟨body, hbody, hset⟩ := List.mem_flatten.mp hset
      exact htests.lookBehinds body hbody set hset
    · cases hset

/-- Units that no set of the automaton tells apart lead to the same subset. -/
theorem after_congr (htests : nfa.Tests kind) {c d : CodeUnit}
    (h : ∀ set, kind set → set.contains c = set.contains d) (key : ForwardSubset) :
    (powerset nfa).after key c = (powerset nfa).after key d :=
  respects nfa key c d fun set hset => h set (kind_of_mem_nextSets htests hset)

end ForwardSubset

end

namespace Powerset.Tabulates

variable {κ : Type} {view : Powerset κ} {initial : List κ} {dfa : Dfa} {keys : Array κ}
  {c d : CodeUnit}

/-- What stands at a number without a key is the dead state. -/
theorem state_eq_dead (ht : view.Tabulates initial dfa keys) {id : Nat} (hid : keys[id]? = none) :
    dfa.state id = TableState.dead := by
  have hsize : dfa.states.size ≤ id := ht.size ▸ Array.getElem?_eq_none_iff.mp hid
  rw [Dfa.state, Array.getElem?_eq_none hsize, Option.getD_none]

/-- On units that lead to the same keys a state goes to the same state. -/
theorem next_congr (ht : view.Tabulates initial dfa keys)
    (h : ∀ key, view.after key c = view.after key d) (id : Nat) :
    (dfa.state id).next c = (dfa.state id).next d := by
  cases hkey : keys[id]? with
  | none =>
    rw [ht.state_eq_dead hkey]
    rfl
  | some key =>
    have hstate := ht.exactState hkey
    apply Option.ext
    intro j
    rw [hstate.next_some, hstate.next_some, h]

/-- Of such units the loop of a state has both or none. -/
theorem mem_loop_congr (ht : view.Tabulates initial dfa keys)
    (h : ∀ key, view.after key c = view.after key d) {id : Nat} {r : Interval}
    (hr : (dfa.state id).loop = some r) : c ∈ r ↔ d ∈ r := by
  cases hkey : keys[id]? with
  | none =>
    rw [ht.state_eq_dead hkey] at hr
    cases hr
  | some key =>
    have hcoherent := (ht.exactState hkey).coherent
    rw [hcoherent.loop r hr, hcoherent.loop r hr, ht.next_congr h]

end Powerset.Tabulates

/-- As many units of an interval are passed in both texts, if at every position the interval has the
units of both or of none. -/
theorem Text.passForward_congr {x y : Text} (hsize : y.size = x.size) {r : Interval}
    (hr : ∀ (i : Nat) (hx : i < x.size) (hy : i < y.size), y[i] ∈ r ↔ x[i] ∈ r) (cursor : Nat) :
    y.passForward r cursor = x.passForward r cursor := by
  induction hn : x.size - cursor using Nat.strongRecOn generalizing cursor with
  | _ n ih =>
    unfold passForward
    by_cases hx : cursor < x.size
    · have hy : cursor < y.size := by omega
      rw [dif_pos hx, dif_pos hy]
      simp only [hr cursor hx hy]
      split
      · exact ih _ (by omega) _ rfl
      · rfl
    · rw [dif_neg hx, dif_neg (by omega)]

namespace Dfa

variable {κ : Type} {view : Powerset κ} {initial : List κ} {dfa : Dfa} {keys : Array κ}
  {x y : Text}

/-- Walks from the same state find the same end if the units of both texts lead to the same keys at
every position. -/
theorem endFrom_congr (ht : view.Tabulates initial dfa keys) (hsize : y.size = x.size)
    (h : ∀ (i : Nat) (hx : i < x.size) (hy : i < y.size) (key : κ),
      view.after key y[i] = view.after key x[i]) (id cursor : Nat) (last : Option Nat) :
    dfa.endFrom y (dfa.state id) cursor last = dfa.endFrom x (dfa.state id) cursor last := by
  induction hn : x.size - cursor using Nat.strongRecOn generalizing id cursor last with
  | _ n ih =>
    have hend (a : Acceptance) : endAt? y a cursor = endAt? x a cursor := by
      simp only [endAt?, hsize]
    rw [endFrom, endFrom.eq_1 dfa x]
    simp only [hend]
    by_cases hx : cursor < x.size
    · have hy : cursor < y.size := by omega
      have hnext := ht.next_congr (h cursor hx hy) id
      rw [dif_pos hx, dif_pos hy, hnext]
      cases hloop : (dfa.state id).loop with
      | none =>
        simp only [Nat.lt_irrefl, if_false]
        cases (dfa.state id).next x[cursor] with
        | none => rfl
        | some next => exact ih _ (by omega) _ _ _ rfl
      | some r =>
        have hpass := Text.passForward_congr hsize
          (fun i hx hy => ht.mem_loop_congr (h i hx hy) hloop) cursor
        simp only [hpass]
        split
        · exact ih _ (by omega) _ _ _ rfl
        · cases (dfa.state id).next x[cursor] with
          | none => rfl
          | some next => exact ih _ (by omega) _ _ _ rfl
    · rw [dif_neg hx, dif_neg (by omega)]

end Dfa

/-- The forward table finds the same end in texts that no set of the automaton tells apart. -/
theorem Nfa.lastEnd?_congr {kind : CharSet → Prop} {nfa : Nfa} (htests : nfa.Tests kind)
    {x y : Text} (h : x.Congruent kind y) {maxStates : Nat} {dfa : Dfa}
    (htable : nfa.forwardTable maxStates = .ok dfa) (entry cursor : Nat) :
    dfa.lastEnd? y entry cursor = dfa.lastEnd? x entry cursor := by
  obtain ⟨keys, -, ht⟩ := Powerset.tabulates_of_tabulate (ForwardSubset.respects nfa) htable
  apply Dfa.endFrom_congr ht h.size_eq
  intro i hx hy key
  apply ForwardSubset.after_congr htests
  intro set hset
  simpa [hx, hy] using h.any_eq set hset i

end UnitRegex
