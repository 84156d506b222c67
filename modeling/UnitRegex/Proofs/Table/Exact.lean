import Mathlib.Data.Set.Card
import UnitRegex.Proofs.Paths.Reports
import UnitRegex.Proofs.Table.BackwardTable
import UnitRegex.Proofs.Table.ForwardTable

/-!
Exactness of the subset construction. A table has one state for every key that is needed, and the
state tells exactly where its key leads on every unit. A table is refused only if more keys are
needed than it may have states.
-/

namespace UnitRegex

namespace Powerset

section

variable {κ : Type}

/-- The initial keys, and those they lead to over keys that are not dead. -/
def needed (view : Powerset κ) (initial : List κ) : Set κ :=
  {key | ∃ distance, view.Reaches initial distance key}

/-- A state with everything that is true of its key. -/
structure ExactState (view : Powerset κ) (keys : Array κ) (i : Nat) (key : κ) (s : TableState) :
    Prop where
  id : s.id = i
  acceptance : s.acceptance = view.acceptance key
  resultIds : s.resultIds = view.resultIds key
  next_none : ∀ c, s.next c = none ↔ view.dead (view.after key c) = true
  next_some : ∀ c j, s.next c = some j ↔
    view.dead (view.after key c) = false ∧ keys[j]? = some (view.after key c)
  coherent : Coherent s

/-- A table whose states are the needed keys, each one once. -/
structure Exact (view : Powerset κ) (initial : List κ) (dfa : Dfa) (keys : Array κ) : Prop where
  size : dfa.size = keys.size
  distinct : keys.toList.Nodup
  needed : ∀ key, key ∈ keys ↔ key ∈ view.needed initial
  entries : dfa.entries.length = initial.length
  entry : ∀ i key, initial[i]? = some key → keys[dfa.entry i]? = some key
  state : ∀ i key, keys[i]? = some key → view.ExactState keys i key (dfa.state i)

variable {view : Powerset κ} {initial : List κ} {dfa : Dfa} {keys : Array κ}

theorem Tabulates.number_unique (h : view.Tabulates initial dfa keys) {i j : Nat} {key : κ}
    (hi : keys[i]? = some key) (hj : keys[j]? = some key) : i = j := by
  obtain ⟨hlt, -⟩ := Array.getElem?_eq_some_iff.mp hi
  refine (List.getElem?_inj (by simpa using hlt) h.distinct).mp ?_
  rw [Array.getElem?_toList, Array.getElem?_toList, hi, hj]

theorem Tabulates.exactState (h : view.Tabulates initial dfa keys) {i : Nat} {key : κ}
    (hkey : keys[i]? = some key) : view.ExactState keys i key (dfa.state i) := by
  have hstate := h.state i key hkey
  refine ⟨h.number_unique hstate.id hkey, hstate.acceptance, hstate.resultIds,
    fun c => ⟨hstate.next_none c, fun hdead => ?_⟩,
    fun c j => ⟨hstate.next_some c j, fun ⟨hlive, hj⟩ => ?_⟩, hstate.coherent⟩
  · cases hnext : (dfa.state i).next c with
    | none => rfl
    | some j =>
      have hlive := (hstate.next_some c j hnext).1
      rw [hdead] at hlive
      simp at hlive
  · cases hnext : (dfa.state i).next c with
    | none =>
      rw [hstate.next_none c hnext] at hlive
      simp at hlive
    | some k => rw [h.number_unique (hstate.next_some c k hnext).2 hj]

/-- Every needed key has a number, since no way on from a key with a number is left out. -/
theorem Tabulates.mem_of_reaches (h : view.Tabulates initial dfa keys) {d : Nat} {key : κ}
    (hreach : view.Reaches initial d key) : key ∈ keys := by
  induction hreach with
  | start hinitial =>
    obtain ⟨i, hi⟩ := List.getElem?_of_mem hinitial
    exact Array.mem_of_getElem? (h.entry i _ hi)
  | read _ c hlive ih =>
    obtain ⟨i, hi⟩ := Array.getElem?_of_mem ih
    have hexact := h.exactState hi
    cases hnext : (dfa.state i).next c with
    | none =>
      rw [(hexact.next_none c).mp hnext] at hlive
      simp at hlive
    | some j => exact Array.mem_of_getElem? ((hexact.next_some c j).mp hnext).2

theorem Tabulates.exact (h : view.Tabulates initial dfa keys) : view.Exact initial dfa keys where
  size := h.size
  distinct := h.distinct
  needed key := by
    constructor
    · intro hmem
      obtain ⟨i, hi⟩ := Array.getElem?_of_mem hmem
      obtain ⟨d, -, hreach⟩ := h.reaches i key hi
      exact ⟨d, hreach⟩
    · rintro ⟨d, hreach⟩
      exact h.mem_of_reaches hreach
  entries := h.entries
  entry := h.entry
  state _ _ hkey := h.exactState hkey

/-- As many keys are needed as there are states. -/
theorem Exact.encard_needed (h : view.Exact initial dfa keys) :
    (view.needed initial).encard = dfa.size := by
  classical
  have hset : view.needed initial = (keys.toList.toFinset : Set κ) := by
    ext key
    simp [← h.needed key]
  rw [hset, Set.encard_coe_eq_coe_finsetCard, List.toFinset_card_of_nodup h.distinct, h.size,
    Array.length_toList]

end

section

variable {κ : Type} [BEq κ] [Hashable κ]

/-- An overflow where more keys are needed than the limit allows. -/
def Exceeds (view : Powerset κ) (initial : List κ) (limit : Nat) (e : Overflow) : Prop :=
  e = ⟨limit + 1, limit⟩ ∧ (limit : ℕ∞) < (view.needed initial).encard

/-- A construction gives an exact table, or it overflows because more keys are needed than a table
may have states. -/
structure TabulatesExactly (view : Powerset κ) (initial : List κ) (maxStates : Nat) : Prop where
  exact : ∀ dfa, view.tabulate initial maxStates = .ok dfa → ∃ keys, view.Exact initial dfa keys
  overflow : ∀ e, view.tabulate initial maxStates = .error e ↔
    view.Exceeds initial (min maxStates 32767) e

variable {view : Powerset κ} {initial : List κ} {limit : Nat}

/-- A new key is refused a number if the others have used up all of them. -/
theorem exceeds_of_number {table : KeyNumbers κ} {key : κ} {d : Nat} {e : Overflow}
    (hv : table.Valid view initial limit) (hreach : view.Reaches initial d key)
    (h : table.number limit key = .error e) : view.Exceeds initial limit e := by
  classical
  unfold KeyNumbers.number at h
  split at h
  · simp at h
  rename_i hnone
  dsimp only at h
  split at h
  · rename_i hlimit
    have hsize : table.keys.size = limit := Nat.le_antisymm hv.size_le hlimit
    refine ⟨by rw [← Except.error.inj h, hsize], ?_⟩
    have hnew : key ∉ table.keys.toList := by
      intro hmem
      obtain ⟨i, hi⟩ := Array.getElem?_of_mem (Array.mem_toList_iff.mp hmem)
      rw [(hv.ids key i).mpr hi] at hnone
      simp at hnone
    have hnodup : (key :: table.keys.toList).Nodup :=
      List.nodup_cons.mpr ⟨hnew, hv.nodup⟩
    have hsubset : ((key :: table.keys.toList).toFinset : Set κ) ⊆ view.needed initial := by
      intro k hk
      have hk : k = key ∨ k ∈ table.keys := by simpa using hk
      rcases hk with rfl | hk
      · exact ⟨d, hreach⟩
      · obtain ⟨i, hi⟩ := Array.getElem?_of_mem hk
        obtain ⟨d, -, hreach⟩ := hv.reaches i k hi
        exact ⟨d, hreach⟩
    have hcard := Set.encard_le_encard hsubset
    rw [Set.encard_coe_eq_coe_finsetCard, List.toFinset_card_of_nodup hnodup, List.length_cons,
      Array.length_toList, hsize] at hcard
    exact lt_of_lt_of_le (by exact_mod_cast Nat.lt_succ_self limit) hcard
  · simp at h

variable [LawfulBEq κ] [LawfulHashable κ]

theorem exceeds_of_numberAll {table : KeyNumbers κ} {keys : List κ} {e : Overflow}
    (hv : table.Valid view initial limit) (hkeys : ∀ key ∈ keys, key ∈ initial)
    (h : table.numberAll limit keys = .error e) : view.Exceeds initial limit e := by
  induction keys generalizing table with
  | nil => simp [KeyNumbers.numberAll] at h
  | cons key rest ih =>
    have hreach : view.Reaches initial 0 key := .start (hkeys key (by simp))
    unfold KeyNumbers.numberAll at h
    split at h
    · rename_i hnumber
      obtain rfl := Except.error.inj h
      exact exceeds_of_number hv hreach hnumber
    · rename_i id numbered hnumber
      obtain ⟨hvalid, -, -⟩ := KeyNumbers.number_spec hv hreach (Nat.zero_le _) hnumber
      split at h
      · rename_i hall
        obtain rfl := Except.error.inj h
        exact ih hvalid (fun k hk => hkeys k (by simp [hk])) hall
      · simp at h

theorem exceeds_of_edges {id : Nat} {key : κ} {bounds : List Nat} {table : KeyNumbers κ}
    {groups : List (Nat × List Interval)} {e : Overflow} (hv : table.Valid view initial limit)
    (hid : table.keys[id]? = some key)
    (h : view.edges limit key table groups bounds = .error e) : view.Exceeds initial limit e := by
  induction bounds generalizing table groups with
  | nil => simp [edges] at h
  | cons lo rest ih =>
    cases rest with
    | nil => simp [edges] at h
    | cons hi rest =>
      obtain ⟨hlt, -⟩ := Array.getElem?_eq_some_iff.mp hid
      obtain ⟨d, hd, hreach⟩ := hv.reaches id key hid
      unfold edges at h
      dsimp only at h
      split at h
      · exact ih hv hid h
      · rename_i hlive
        have hnext := hreach.read _ (by simpa using hlive)
        split at h
        · rename_i hnumber
          obtain rfl := Except.error.inj h
          exact exceeds_of_number hv hnext hnumber
        · rename_i j numbered hnumber
          obtain ⟨hvalid, hgrows, -⟩ := KeyNumbers.number_spec hv hnext (by omega) hnumber
          exact ih hvalid (hgrows.2 id key hid) h

theorem exceeds_of_tabulateFrom (hview : view.Respects) {fuel : Nat} {table : KeyNumbers κ}
    {states : Array TableState} {e : Overflow} (hv : table.Valid view initial limit)
    (h : view.tabulateFrom limit fuel table states = .error e) : view.Exceeds initial limit e := by
  induction fuel generalizing table states with
  | zero => simp [tabulateFrom] at h
  | succ fuel ih =>
    unfold tabulateFrom at h
    split at h
    · simp at h
    rename_i key hkey
    split at h
    · rename_i hedges
      obtain rfl := Except.error.inj h
      exact exceeds_of_edges hv hkey hedges
    · rename_i groups numbered hedges
      obtain ⟨hvalid, -, -⟩ := edges_pieceBounds hview hv hkey hedges
      exact ih hvalid h

theorem exceeds_of_tabulate (hview : view.Respects) {maxStates : Nat} {e : Overflow}
    (h : view.tabulate initial maxStates = .error e) :
    view.Exceeds initial (min maxStates 32767) e := by
  have hempty : ({} : KeyNumbers κ).Valid view initial (min maxStates 32767) :=
    KeyNumbers.valid_empty
  unfold tabulate at h
  dsimp only at h
  split at h
  · rename_i hentries
    obtain rfl := Except.error.inj h
    exact exceeds_of_numberAll hempty (fun key hkey => hkey) hentries
  · rename_i entries numbered hentries
    obtain ⟨hvalid, -⟩ := KeyNumbers.numberAll_spec hempty (fun key hkey => hkey) hentries
    split at h
    · rename_i hstates
      obtain rfl := Except.error.inj h
      exact exceeds_of_tabulateFrom hview hvalid hstates
    · simp at h

/-- The construction is exact for keys that look at a unit only through their sets. -/
theorem tabulatesExactly (hview : view.Respects) (maxStates : Nat) :
    view.TabulatesExactly initial maxStates where
  exact dfa h := by
    obtain ⟨keys, -, ht⟩ := tabulates_of_tabulate hview h
    exact ⟨keys, ht.exact⟩
  overflow e := by
    refine ⟨exceeds_of_tabulate hview, fun ⟨he, hlt⟩ => ?_⟩
    cases h : view.tabulate initial maxStates with
    | error e' => rw [(exceeds_of_tabulate hview h).1, he]
    | ok dfa =>
      obtain ⟨keys, hle, ht⟩ := tabulates_of_tabulate hview h
      have hsize := ht.size
      rw [ht.exact.encard_needed, Nat.cast_lt, Dfa.size] at hlt
      have := ht.few
      omega

end

end Powerset

/-- The tables of ends, of starts and of paths are exact, whatever the automaton or the paths they
are made of and however many states they may have. -/
theorem Powerset.tabulatesExactly_subsets (nfa : Nfa) (paths : Array Path) (maxStates : Nat) :
    (ForwardSubset.powerset nfa).TabulatesExactly (ForwardSubset.initial nfa) maxStates ∧
      (BackwardSubset.powerset nfa).TabulatesExactly (BackwardSubset.initial nfa) maxStates ∧
      (PathSubset.powerset paths).TabulatesExactly [PathSubset.initial paths] maxStates :=
  ⟨tabulatesExactly (ForwardSubset.respects nfa) maxStates,
    tabulatesExactly (BackwardSubset.respects nfa) maxStates,
    tabulatesExactly (PathSubset.respects paths) maxStates⟩

end UnitRegex
