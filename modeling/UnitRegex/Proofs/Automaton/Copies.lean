import UnitRegex.Proofs.Automaton.Fragments
import UnitRegex.Proofs.Matching.Loops

/-!
The copy of a fragment that is passed before its first unit. The copy follows the fragment in
lockstep as long as nothing is read; its exit leads nowhere, and a unit leads back into the fragment
itself. So of all that the fragment leads to just the part remains that has moved.
-/

namespace UnitRegex

theorem NfaState.mem_successors_mapEpsilon {rename : Nat → Nat} {st : NfaState} {t : Nat}
    (h : t ∈ (st.mapEpsilon rename).successors) :
    (∃ set, st = .unit set t) ∨ ∃ u ∈ st.successors, t = rename u := by
  cases st with
  | unit set next =>
    obtain rfl := List.mem_singleton.mp h
    exact .inl ⟨set, rfl⟩
  | split targets =>
    obtain ⟨u, hu, rfl⟩ := List.mem_map.mp h
    exact .inr ⟨u, hu, rfl⟩
  | loop counter low high greedy body exit =>
    simp only [mapEpsilon, successors, List.mem_cons, List.not_mem_nil, or_false] at h
    rcases h with rfl | rfl
    · exact .inr ⟨body, by simp [successors], rfl⟩
    · exact .inr ⟨exit, by simp [successors], rfl⟩
  | accept => simp [mapEpsilon, successors] at h
  | assert guard next | save slot next | unset lo hi next | reset counter next
  | increment counter limit next =>
    obtain rfl := List.mem_singleton.mp h
    exact .inr ⟨next, by simp [successors], rfl⟩

theorem countChoices_map (rename : Nat → Nat) (low : Nat) (high : Option Nat) (greedy : Bool)
    (body exit count : Nat) :
    countChoices low high greedy (rename body) (rename exit) count =
      (countChoices low high greedy body exit count).map fun c => (rename c.1, c.2) := by
  unfold countChoices
  by_cases hagain : high.all (count < ·) <;> by_cases hleave : low ≤ count <;> cases greedy <;>
    simp [hagain, hleave]

namespace Nfa

variable {nfa nfa' : Nfa} {rename : Nat → Nat} {text : Text}

/-- A renamed copy goes on without reading as the original does. -/
theorem epsilon_copy {s t : Nat} (h : nfa'.state t = (nfa.state s).mapEpsilon rename)
    (counts : List Nat) :
    nfa'.epsilon (t, counts) = (nfa.epsilon (s, counts)).map fun b => (rename b.1, b.2) := by
  unfold epsilon
  rw [h]
  cases nfa.state s <;>
    simp only [NfaState.mapEpsilon, List.map_nil, List.map_singleton, List.map_map,
      countChoices_map] <;> rfl

theorem successors_copy {t : Thread} {cursor : Nat}
    (h : nfa.state (rename t.state) = (nfa.state t.state).mapEpsilon rename) :
    Thread.successors nfa text cursor { t with state := rename t.state } =
      (t.successors nfa text cursor).map fun u => { u with state := rename u.state } := by
  unfold Thread.successors
  rw [h]
  cases nfa.state t.state with
  | assert guard next =>
    simp only [NfaState.mapEpsilon]
    split <;> rfl
  | unit | split | save | unset | reset | increment | loop | accept =>
    simp only [NfaState.mapEpsilon, List.map_nil, List.map_singleton, List.map_map,
      countChoices_map] <;> rfl

end Nfa

/-- Whatever stands among the copies has an original. -/
theorem exists_rename_eq {rename : Nat → Nat} {lo hi base : Nat}
    (hinside : ∀ s, lo ≤ s → s < hi → rename s = s - lo + base) {first last s : Nat}
    (hfirst : lo ≤ first) (hlast : last ≤ hi) (hs : first - lo + base ≤ s)
    (hs' : s < last - lo + base) : ∃ t, first ≤ t ∧ t < last ∧ rename t = s := by
  refine ⟨s - base + lo, by omega, by omega, ?_⟩
  rw [hinside _ (by omega) (by omega)]
  omega

/-- The states from `base` on copy those from `lo` up to `hi` by a renaming that sends `next` to a
state without successors. -/
structure CopiedAt (nfa : Nfa) (lo hi next dead base : Nat) (rename : Nat → Nat) : Prop where
  inside : ∀ s, lo ≤ s → s < hi → rename s = s - lo + base
  exit : rename next = dead
  dead : nfa.state dead = .split []
  copy : ∀ s, lo ≤ s → s < hi → nfa.state (rename s) = (nfa.state s).mapEpsilon rename

namespace Fragment

variable {nfa : Nfa} {text : Text} {f : Behavior} {n : Bool} {clo chi lo hi dead base next : Nat}
  {entries : List Nat} {rename : Nat → Nat}

/-- Without a unit there is no way out of the copy. -/
theorem settles_copy (hf : Fragment nfa text f n clo chi lo hi entries next)
    (hc : CopiedAt nfa lo hi next dead base rename) {a : Nat × List Nat}
    (h : nfa.Settles (fun b => b.1 = next) a) (ha : a.1 = next ∨ (lo ≤ a.1 ∧ a.1 < hi)) :
    nfa.Settles (fun _ => False) (rename a.1, a.2) := by
  have hdead : ∀ counts, nfa.Settles (fun _ => False) (rename next, counts) := by
    intro counts
    refine .go fun b hb => ?_
    simp [Nfa.epsilon, hc.exit, hc.dead] at hb
  induction h with
  | stop h =>
    rw [h]
    exact hdead _
  | @go a _ ih =>
    rcases ha with ha | ⟨halo, hahi⟩
    · rw [ha]
      exact hdead _
    · refine .go fun b hb => ?_
      rw [Nfa.epsilon_copy (hc.copy a.1 halo hahi)] at hb
      obtain ⟨c, hmem, rfl⟩ := List.mem_map.mp hb
      exact ih c hmem (hf.closed a.1 halo hahi c.1 (Nfa.state_mem_successors hmem))

/-- Before the first unit the copy keeps step with the original, and afterwards both are the
same. -/
theorem unfolds_copy (hf : Fragment nfa text f n clo chi lo hi entries next)
    (hc : CopiedAt nfa lo hi next dead base rename) {first last cursor : Nat}
    (hdead : first ≤ dead ∧ dead < last) (hlo : first ≤ lo) (hhi : hi ≤ last)
    (hbase : first ≤ base ∧ base + (hi - lo) ≤ last) {before after : List Configuration}
    (h : nfa.Unfolds text lo hi before after) (hafter : ∀ y ∈ after, y.state = next)
    (hcursor : ∀ x ∈ before, x.cursor = cursor)
    (hin : ∀ x ∈ before, x.state = next ∨ (lo ≤ x.state ∧ x.state < hi)) :
    nfa.Unfolds text first last (before.map fun x => x.goTo (rename x.state))
      (after.filter fun y =>
        text.left nfa.direction y.cursor < text.left nfa.direction cursor) := by
  induction h with
  | nil => exact .nil
  | @leave x rest after _ ih =>
    have hrest := ih (fun y hy => hafter y (by simp [hy])) (fun y hy => hcursor y (by simp [hy]))
      fun y hy => hin y (by simp [hy])
    have hx : x.cursor = cursor := hcursor x (by simp)
    have hstate : (x.goTo (rename x.state)).state = dead := by
      rw [Configuration.goTo_state, hafter x (by simp), hc.exit]
    have hsteps : nfa.steps text text.size (x.goTo (rename x.state)) = [] := by
      rw [Nfa.steps_of_not_unit (by simp [hstate, hc.dead])]
      have hthread : (x.goTo (rename x.state)).thread.state = dead := hstate
      simp [Thread.successors, hthread, hc.dead]
    have hstep : nfa.Unfolds text first last
        ((x :: rest).map fun x => x.goTo (rename x.state)) ([] ++ _) :=
      .step (by rw [hstate]; exact hdead.1) (by rw [hstate]; exact hdead.2)
        (by simp [hstate, hc.dead]) (by rw [hsteps]; exact .nil) hrest
    rw [List.filter_cons_of_neg (by simp [hx])]
    exact hstep
  | @step x rest ways after hxlo hxhi haccept hways hrest ihways ih =>
    have hrest' := ih (fun y hy => hafter y (by simp [hy]))
      (fun y hy => hcursor y (by simp [hy])) fun y hy => hin y (by simp [hy])
    have hx : x.cursor = cursor := hcursor x (by simp)
    have hcopy := hc.copy x.state hxlo hxhi
    have hplace : first ≤ rename x.state ∧ rename x.state < last := by
      rw [hc.inside x.state hxlo hxhi]
      omega
    have haccept' : nfa.state (x.goTo (rename x.state)).state ≠ .accept := by
      rw [Configuration.goTo_state, hcopy]
      cases hs : nfa.state x.state <;> simp_all [NfaState.mapEpsilon]
    have hways' : nfa.Unfolds text first last
        (nfa.steps text text.size (x.goTo (rename x.state)))
        (ways.filter fun y =>
          text.left nfa.direction y.cursor < text.left nfa.direction cursor) := by
      by_cases hunit : ∃ set t, nfa.state x.state = .unit set t
      · obtain ⟨set, t, hs⟩ := hunit
        have hsteps : nfa.steps text text.size (x.goTo (rename x.state)) =
            nfa.steps text text.size x := by
          have hs' : nfa.state (x.goTo (rename x.state)).state = .unit set t := by
            rw [Configuration.goTo_state, hcopy, hs]
            rfl
          rw [Nfa.steps_of_unit hs', Nfa.steps_of_unit hs]
          rfl
        have hmoved : ∀ y ∈ ways,
            text.left nfa.direction y.cursor < text.left nfa.direction cursor := by
          intro y hy
          have hle := hways.left_le (n := text.left nfa.direction cursor - 1) (fun z hz => by
            rcases Nfa.mem_steps hz with ⟨_, _, _, _, hread, _, _⟩ | ⟨_, hmem⟩
            · have := Text.left_lt_of_read hread
              rw [hx] at this
              omega
            · unfold Configuration.state at hs
              simp [Thread.successors, hs] at hmem) y hy
          have hpos : 0 < text.left nfa.direction cursor := by
            cases hz : nfa.steps text text.size x with
            | nil =>
              rw [hz] at hways
              cases hways
              simp at hy
            | cons z zs =>
              have hz : z ∈ nfa.steps text text.size x := by simp [hz]
              rcases Nfa.mem_steps hz with ⟨_, _, _, _, hread, _, _⟩ | ⟨_, hmem⟩
              · have := Text.left_lt_of_read hread
                rw [hx] at this
                omega
              · unfold Configuration.state at hs
                simp [Thread.successors, hs] at hmem
          omega
        rw [hsteps, List.filter_eq_self.mpr fun y hy => by simpa using hmoved y hy]
        exact hways.mono hlo hhi
      · have hnot : ∀ set t, nfa.state x.state ≠ .unit set t := fun set t hs =>
          hunit ⟨set, t, hs⟩
        have hnot' : ∀ set t, nfa.state (x.goTo (rename x.state)).state ≠ .unit set t := by
          intro set t hs
          rw [Configuration.goTo_state, hcopy] at hs
          cases hst : nfa.state x.state <;> simp_all [NfaState.mapEpsilon]
        have hsteps : nfa.steps text text.size (x.goTo (rename x.state)) =
            (nfa.steps text text.size x).map fun y => y.goTo (rename y.state) := by
          have hthread : (x.goTo (rename x.state)).thread =
              { x.thread with state := rename x.thread.state } := rfl
          rw [Nfa.steps_of_not_unit hnot', Nfa.steps_of_not_unit hnot, hthread,
            Configuration.goTo_cursor, Nfa.successors_copy hcopy, List.map_map, List.map_map]
          rfl
        rw [hsteps]
        refine ihways (fun y hy => hafter y (by simp [hy])) ?_ ?_
        · intro y hy
          rcases Nfa.mem_steps hy with ⟨set, _, hs, _⟩ | ⟨hsame, _⟩
          · exact absurd hs (hnot set _)
          · rw [hsame, hx]
        · intro y hy
          rcases Nfa.mem_steps hy with ⟨set, _, hs, _⟩ | ⟨_, hmem⟩
          · exact absurd hs (hnot set _)
          · exact hf.closed x.state hxlo hxhi y.state
              (Nfa.state_mem_successors (Thread.key_mem_epsilon hmem))
    rw [List.filter_append]
    exact .step hplace.1 hplace.2 haccept' hways' hrest'

/-- A fragment together with its copy, entered at the copy. -/
theorem moving {entry : Nat} (hf : Fragment nfa text f n clo chi lo hi [entry] next)
    (hc : CopiedAt nfa lo hi next hi (hi + 1) rename) (hlo : lo ≤ hi) :
    Fragment nfa text (.moving text nfa.direction f) false clo chi lo (hi + 1 + (hi - lo))
      [rename entry] next where
  entries_in e he := by
    obtain rfl := List.mem_singleton.mp he
    rcases hf.entries_in entry (by simp) with hentry | hentry
    · have := hc.exit
      rw [hentry]
      omega
    · have := hc.inside entry hentry.1 hentry.2
      omega
  closed t htlo hthi u hu := by
    by_cases horiginal : t < hi
    · have := hf.closed t htlo horiginal u hu
      omega
    · by_cases hdead : t = hi
      · subst hdead
        simp [Nfa.successors, hc.dead, NfaState.successors] at hu
      · -- A state of the copy; `s` is the state that it copies.
        obtain ⟨s, hslo, hshi, rfl⟩ :=
          exists_rename_eq hc.inside (Nat.le_refl lo) (Nat.le_refl hi) (s := t) (by omega) (by omega)
        rw [Nfa.successors, hc.copy s hslo hshi] at hu
        rcases NfaState.mem_successors_mapEpsilon hu with ⟨set, hset⟩ | ⟨v, hv, rfl⟩
        · have := hf.closed s hslo hshi u (by simp [Nfa.successors, hset, NfaState.successors])
          omega
        · rcases hf.closed s hslo hshi v hv with rfl | hv
          · have := hc.exit
            omega
          · have := hc.inside v hv.1 hv.2
            omega
  settles t htlo hthi counts := by
    by_cases horiginal : t < hi
    · exact hf.settles t htlo horiginal counts
    · by_cases hdead : t = hi
      · subst hdead
        refine .go fun b hb => ?_
        simp [Nfa.epsilon, hc.dead] at hb
      · obtain ⟨s, hslo, hshi, rfl⟩ :=
          exists_rename_eq hc.inside (Nat.le_refl lo) (Nat.le_refl hi) (s := t) (by omega) (by omega)
        exact (hf.settles_copy hc (hf.settles s hslo hshi counts) (.inr ⟨hslo, hshi⟩)).of_false
  moves _ e he counts := by
    obtain rfl := List.mem_singleton.mp he
    have hentry := hf.entries_in entry (by simp)
    have hsettles : nfa.Settles (fun b => b.1 = next) (entry, counts) := by
      rcases hentry with h | h
      · exact .stop h
      · exact hf.settles entry h.1 h.2 counts
    exact hf.settles_copy hc hsettles hentry
  yields x hx hcounts := by
    obtain ⟨after, hmap, hleaves, hunfold⟩ := hf.yields x hx hcounts
    have hcopy : nfa.Unfolds text lo (hi + 1 + (hi - lo)) ([x.goTo (rename entry)])
        (after.filter fun y =>
          text.left nfa.direction y.cursor < text.left nfa.direction x.cursor) :=
      hf.unfolds_copy hc (by omega) (Nat.le_refl lo) (by omega) (by omega) hunfold
        (fun y hy => (hleaves y hy).state) (by simp)
        (by simpa using hf.entries_in entry (by simp))
    refine ⟨_, ?_, fun y hy => hleaves y (List.mem_filter.mp hy).1, hcopy⟩
    rw [Behavior.moving, ← hmap, List.filter_map]
    rfl

end Fragment

end UnitRegex
