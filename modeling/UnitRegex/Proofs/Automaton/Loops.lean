import UnitRegex.Automaton.Build
import UnitRegex.Proofs.Automaton.Copies

/-!
Fragments for loops. A loop without a bound is a split in front of an iteration that leads back to
it; an optional iteration is a split that may pass it by; a counted loop keeps the number of its
iterations in a counter that stops at a limit.
-/

namespace UnitRegex

namespace Fragment

variable {nfa : Nfa} {text : Text} {f g : Behavior} {n : Bool}
  {clo cmid chi lo mid hi entry next t : Nat}

/-- A loop whose iterations all read something. -/
theorem star {greedy : Bool} (hf : Fragment nfa text f false clo chi (lo + 1) hi [entry] lo)
    (hstate : nfa.state lo = .split (BuildPlan.ordered greedy entry next))
    (hconsumes : f.Consumes text nfa.direction) (hg : g = .option greedy (f.andThen g))
    (hlo : lo + 1 ≤ hi) : Fragment nfa text g true clo chi lo hi [lo] next where
  entries_in e he := by
    obtain rfl := List.mem_singleton.mp he
    omega
  closed s hslo hshi u hu := by
    by_cases hhead : s = lo
    · subst hhead
      have hentry := hf.entries_in entry (by simp)
      simp only [Nfa.successors, hstate, NfaState.successors, BuildPlan.ordered] at hu
      have hu : u = entry ∨ u = next := by
        cases greedy <;> simpa [or_comm] using hu
      omega
    · have := hf.closed s (by omega) hshi u hu
      omega
  settles s hslo hshi counts := by
    have hhead : ∀ counts, nfa.Settles (fun b => b.1 = next) (lo, counts) := by
      intro counts
      refine .go fun b hb => ?_
      simp only [Nfa.epsilon, hstate, BuildPlan.ordered] at hb
      have hb : b = (entry, counts) ∨ b = (next, counts) := by
        cases greedy <;> simpa [or_comm] using hb
      rcases hb with rfl | rfl
      · exact (hf.moves rfl entry (by simp) counts).of_false
      · exact .stop rfl
    by_cases hs : s = lo
    · rw [hs]
      exact hhead counts
    · refine (hf.settles s (by omega) hshi counts).bind ?_
      rintro ⟨u, counts'⟩ rfl
      exact hhead counts'
  moves h := absurd h (by simp)
  yields x hx hcounts := by
    generalize hleft : text.left nfa.direction x.cursor = left
    induction left using Nat.strongRecOn generalizing x with
    | ind left ih =>
      have hleave : nfa.Yields text lo hi (x.Leaves text clo chi next) [x.goTo next]
          [x.matchState] :=
        (nfa.unfolding text lo hi).single (s := x.goTo next) ⟨rfl, hx, .refl _ _ _⟩
      have henter : nfa.Yields text lo hi (x.Leaves text clo chi next) [x.goTo entry]
          ((f.andThen g) x.matchState) := by
        have hbody := (hf.yields x hx hcounts).mem.mono fun a b h =>
          h.mono (Nat.le_succ lo) (Nat.le_refl hi)
        refine (nfa.unfolding text lo hi).bind hbody fun y hy => ?_
        obtain ⟨hy, hmem⟩ := hy
        have hmoved := hconsumes _ _ hmem
        have hagain := ih _ (hleft ▸ hmoved) y hy.cursor (by rw [hy.counts.length]; exact hcounts)
          rfl
        rw [List.map_singleton, Configuration.goTo_of_state hy.state] at hagain
        exact hagain.imp fun z hz => hy.after hz
      refine Nfa.yields_of_steps (Nat.le_refl lo) hlo (by simp [hstate]) ?_
      rw [Nfa.steps_of_split x hstate, hg, BuildPlan.ordered, Behavior.option]
      cases greedy with
      | true => exact (nfa.unfolding text lo hi).join henter hleave
      | false => exact (nfa.unfolding text lo hi).join hleave henter

/-- An iteration that reads something, in front of what follows it, or neither of the two. -/
theorem option {greedy : Bool} (hf : Fragment nfa text f false cmid chi mid hi [entry] t)
    (hg : Fragment nfa text g n clo cmid lo mid [t] next)
    (hstate : nfa.state hi = .split (BuildPlan.ordered greedy entry next)) (hlo : lo ≤ mid)
    (hhi : mid ≤ hi) (hclo : clo ≤ cmid) (hchi : cmid ≤ chi) :
    Fragment nfa text (.option greedy (f.andThen g)) true clo chi lo (hi + 1) [hi] next := by
  have hseq := hf.seq hg hlo hhi hclo hchi
  cases greedy with
  | true =>
    exact (hseq.alt (skip chi hi next) (Nat.le_trans hlo hhi) (Nat.le_refl hi)
      (Nat.le_trans hclo hchi) (Nat.le_refl chi)).split (Nat.le_trans hlo hhi) hstate
  | false =>
    exact ((skip clo lo next).alt hseq (Nat.le_refl lo) (Nat.le_trans hlo hhi) (Nat.le_refl clo)
      (Nat.le_trans hclo hchi)).split (Nat.le_trans hlo hhi) hstate

end Fragment

namespace Configuration

def setCount (x : Configuration) (counter value : Nat) : Configuration :=
  { x with thread := x.thread.setCount counter value }

theorem count_setCount {x : Configuration} {counter : Nat} (value : Nat)
    (h : counter < x.thread.counts.length) :
    (x.setCount counter value).thread.count counter = value := by
  simp [setCount, Thread.setCount, Thread.count, h]

theorem sameCounts_setCount (x : Configuration) {clo chi counter : Nat} (value : Nat)
    (hlo : clo ≤ counter) (hhi : counter < chi) :
    SameCounts clo chi x.thread.counts (x.setCount counter value).thread.counts :=
  .set hlo hhi

end Configuration

/-- The counter of a loop after some iterations: it stops where more of them make no difference. -/
def Quantifier.countAfter (q : Quantifier) (iterations : Nat) : Nat :=
  Min.min iterations (q.max.getD q.min)

theorem Quantifier.countAfter_succ (q : Quantifier) (iterations : Nat) :
    Min.min (q.countAfter iterations + 1) (q.max.getD q.min) = q.countAfter (iterations + 1) := by
  unfold countAfter
  omega

/-- What the head of a counted loop offers is what the meaning of the loop offers. -/
theorem countChoices_countAfter {q : Quantifier} {iterations : Nat}
    (hq : ∀ high, q.max = some high → q.min ≤ high ∧ iterations ≤ high) (body exit : Nat) :
    countChoices q.min q.max q.greedy body exit (q.countAfter iterations) =
      if iterations < q.min then [(body, q.countAfter iterations)]
      else if q.max.any (· ≤ iterations) then [(exit, 0)]
      else if q.greedy then [(body, q.countAfter iterations), (exit, 0)]
      else [(exit, 0), (body, q.countAfter iterations)] := by
  unfold countChoices
  cases hmax : q.max with
  | none =>
    have hcount : q.countAfter iterations = min iterations q.min := by
      simp [Quantifier.countAfter, hmax]
    rw [hcount]
    by_cases hmin : iterations < q.min
    · have : ¬q.min ≤ min iterations q.min := by omega
      cases q.greedy <;> simp [hmin, this]
    · have : q.min ≤ min iterations q.min := by omega
      cases q.greedy <;> simp [hmin, this]
  | some high =>
    obtain ⟨hle, hit⟩ := hq high hmax
    have hcount : q.countAfter iterations = iterations := by
      simp [Quantifier.countAfter, hmax]
      omega
    rw [hcount]
    by_cases hmin : iterations < q.min
    · have hagain : iterations < high := by omega
      have hleave : ¬q.min ≤ iterations := by omega
      cases q.greedy <;> simp [hmin, hagain, hleave]
    · have hleave : q.min ≤ iterations := by omega
      by_cases hagain : iterations < high
      · have : ¬high ≤ iterations := by omega
        cases q.greedy <;> simp [hmin, hleave, hagain, this]
      · have : high ≤ iterations := by omega
        cases q.greedy <;> simp [hmin, hleave, hagain, this]

namespace Fragment

variable {nfa : Nfa} {text : Text} {f : Behavior} {q : Quantifier}
  {counter chi lo hi entry next : Nat}

/-- The head of a counted loop, whose iterations all read something. -/
theorem yields_counted
    (hf : Fragment nfa text f false (counter + 1) chi (lo + 2) hi [entry] (lo + 1))
    (hhead : nfa.state lo = .loop counter q.min q.max q.greedy entry next)
    (hincrement : nfa.state (lo + 1) = .increment counter (q.max.getD q.min) lo)
    (hconsumes : f.Consumes text nfa.direction)
    (hq : ∀ high, q.max = some high → q.min ≤ high) (hlo : lo + 2 ≤ hi) (hchi : counter < chi)
    (iterations : Nat) (x : Configuration) (hx : x.cursor ≤ text.size)
    (hcounts : chi ≤ x.thread.counts.length)
    (hiterations : ∀ high, q.max = some high → iterations ≤ high)
    (hcount : x.thread.count counter = q.countAfter iterations) :
    nfa.Yields text lo hi (x.Leaves text counter chi next) [x.goTo lo]
      (Behavior.repeated text nfa.direction q f iterations x.matchState) := by
  have hleave : nfa.Yields text lo hi (x.Leaves text counter chi next)
      [(x.setCount counter 0).goTo next] [x.matchState] :=
    (nfa.unfolding text lo hi).single (s := (x.setCount counter 0).goTo next)
      ⟨rfl, hx, x.sameCounts_setCount 0 (Nat.le_refl counter) hchi⟩
  have henter : (∀ high, q.max = some high → iterations + 1 ≤ high) →
      nfa.Yields text lo hi (x.Leaves text counter chi next)
        [(x.setCount counter (q.countAfter iterations)).goTo entry]
        ((f.andThen (Behavior.repeated text nfa.direction q f (iterations + 1))) x.matchState) := by
    intro hnext
    generalize hentered : x.setCount counter (q.countAfter iterations) = u
    have hucursor : u.cursor = x.cursor := by
      rw [← hentered]
      rfl
    have humatch : u.matchState = x.matchState := by
      rw [← hentered]
      rfl
    have hsame : SameCounts counter chi x.thread.counts u.thread.counts := by
      rw [← hentered]
      exact x.sameCounts_setCount _ (Nat.le_refl counter) hchi
    have hucount : u.thread.count counter = q.countAfter iterations := by
      rw [← hentered]
      exact Configuration.count_setCount _ (by omega)
    have hbody := (hf.yields u (by rw [hucursor]; exact hx)
      (by rw [hsame.length]; exact hcounts)).mem.mono fun a b h =>
        h.mono (Nat.le_add_right lo 2) (Nat.le_refl hi)
    rw [humatch] at hbody
    refine (nfa.unfolding text lo hi).bind hbody fun y hy => ?_
    obtain ⟨hy, hmem⟩ := hy
    have hmoved : text.left nfa.direction y.cursor < text.left nfa.direction x.cursor :=
      hconsumes _ _ hmem
    have hycount : y.thread.count counter = q.countAfter iterations := by
      rw [← hucount, Thread.count, Thread.count, hy.counts.others counter (by omega)]
    have hylength : chi ≤ y.thread.counts.length := by
      rw [hy.counts.length, hsame.length]
      exact hcounts
    have hsteps : nfa.steps text text.size y =
        [(y.setCount counter (q.countAfter (iterations + 1))).goTo lo] := by
      have hystate : y.thread.state = lo + 1 := hy.state
      rw [Nfa.steps_of_not_unit (by simp [hy.state, hincrement])]
      simp only [Thread.successors, hystate, hincrement, hycount, Quantifier.countAfter_succ,
        List.map_singleton]
      rfl
    refine Nfa.yields_of_steps (by rw [hy.state]; omega) (by rw [hy.state]; omega)
      (by simp [hy.state, hincrement]) ?_
    rw [hsteps]
    have hagain := yields_counted hf hhead hincrement hconsumes hq hlo hchi (iterations + 1)
      (y.setCount counter (q.countAfter (iterations + 1))) hy.cursor
      (by simpa [Configuration.setCount, Thread.setCount] using hylength) hnext
      (Configuration.count_setCount _ (by omega))
    refine hagain.imp fun z hz => ⟨hz.state, hz.cursor, ?_⟩
    exact (hsame.trans (hy.counts.mono (Nat.le_succ counter) (Nat.le_refl chi))).trans
      ((y.sameCounts_setCount _ (Nat.le_refl counter) hchi).trans hz.counts)
  have hsteps : nfa.steps text text.size (x.goTo lo) =
      (countChoices q.min q.max q.greedy entry next (q.countAfter iterations)).map fun choice =>
        (x.setCount counter choice.2).goTo choice.1 := by
    have hstate : (x.goTo lo).thread.state = lo := rfl
    have hread : (x.goTo lo).thread.count counter = q.countAfter iterations := hcount
    rw [Nfa.steps_of_not_unit (by simp [hhead])]
    simp only [Thread.successors, hstate, hhead, hread, List.map_map]
    rfl
  refine Nfa.yields_of_steps (Nat.le_refl lo) (by simp; omega) (by simp [hhead]) ?_
  rw [hsteps, countChoices_countAfter fun high h => ⟨hq high h, hiterations high h⟩]
  by_cases hmin : iterations < q.min
  · rw [if_pos hmin, Behavior.repeated_of_lt_min hmin]
    exact henter fun high h => Nat.lt_of_lt_of_le hmin (hq high h)
  · rw [if_neg hmin, Behavior.repeated_of_min_le (by omega),
      Behavior.moving_of_consumes hconsumes]
    by_cases hmax : q.max.any (· ≤ iterations)
    · rw [if_pos hmax, if_pos hmax]
      exact hleave
    · rw [if_neg hmax, if_neg hmax, Behavior.option]
      have hnext : ∀ high, q.max = some high → iterations + 1 ≤ high := by
        intro high h
        have : ¬high ≤ iterations := by simpa [h] using hmax
        omega
      cases q.greedy with
      | true => exact (nfa.unfolding text lo hi).join (henter hnext) hleave
      | false => exact (nfa.unfolding text lo hi).join hleave (henter hnext)
termination_by text.left nfa.direction x.cursor

/-- A loop that counts its iterations. -/
theorem counted (hf : Fragment nfa text f false (counter + 1) chi (lo + 2) hi [entry] (lo + 1))
    (hhead : nfa.state lo = .loop counter q.min q.max q.greedy entry next)
    (hincrement : nfa.state (lo + 1) = .increment counter (q.max.getD q.min) lo)
    (hreset : nfa.state hi = .reset counter lo) (hconsumes : f.Consumes text nfa.direction)
    (hq : ∀ high, q.max = some high → q.min ≤ high) (hlo : lo + 2 ≤ hi) (hchi : counter < chi) :
    Fragment nfa text (.repeated text nfa.direction q f 0) (q.min == 0) counter chi lo (hi + 1)
      [hi] next where
  entries_in e he := by
    obtain rfl := List.mem_singleton.mp he
    omega
  closed s hslo hshi u hu := by
    have hentry := hf.entries_in entry (by simp)
    by_cases hs : s = lo
    · subst hs
      simp only [Nfa.successors, hhead, NfaState.successors, List.mem_cons, List.not_mem_nil,
        or_false] at hu
      omega
    · by_cases hs' : s = lo + 1
      · subst hs'
        simp only [Nfa.successors, hincrement, NfaState.successors, List.mem_singleton] at hu
        omega
      · by_cases hs'' : s = hi
        · subst hs''
          simp only [Nfa.successors, hreset, NfaState.successors, List.mem_singleton] at hu
          omega
        · have := hf.closed s (by omega) (by omega) u hu
          omega
  settles s hslo hshi counts := by
    have hloop : ∀ counts, nfa.Settles (fun b => b.1 = next) (lo, counts) := by
      intro counts
      refine .go fun b hb => ?_
      simp only [Nfa.epsilon, hhead] at hb
      obtain ⟨choice, hmem, rfl⟩ := List.mem_map.mp hb
      rcases Nfa.mem_countChoices.mp hmem with ⟨-, rfl⟩ | ⟨-, rfl⟩
      · exact (hf.moves rfl entry (by simp) _).of_false
      · exact .stop rfl
    have hcount : ∀ counts, nfa.Settles (fun b => b.1 = next) (lo + 1, counts) := by
      intro counts
      refine .go fun b hb => ?_
      simp only [Nfa.epsilon, hincrement, List.mem_singleton] at hb
      rw [hb]
      exact hloop _
    by_cases hs : s = lo
    · rw [hs]
      exact hloop counts
    · by_cases hs' : s = lo + 1
      · rw [hs']
        exact hcount counts
      · by_cases hs'' : s = hi
        · subst hs''
          refine .go fun b hb => ?_
          simp only [Nfa.epsilon, hreset, List.mem_singleton] at hb
          rw [hb]
          exact hloop _
        · refine (hf.settles s (by omega) (by omega) counts).bind ?_
          rintro ⟨u, counts'⟩ rfl
          exact hcount counts'
  moves hn e he counts := by
    -- The counter has been reset, so the loop cannot be left before the first iteration.
    obtain rfl := List.mem_singleton.mp he
    have hmin : ¬q.min ≤ 0 := by
      have : q.min ≠ 0 := by simpa using hn
      omega
    refine .go fun b hb => ?_
    simp only [Nfa.epsilon, hreset, List.mem_singleton] at hb
    rw [hb]
    refine .go fun b hb => ?_
    have hzero : (counts.set counter 0)[counter]?.getD 0 = 0 := by
      by_cases h : counter < counts.length <;> simp [h]
    simp only [Nfa.epsilon, hhead, hzero] at hb
    obtain ⟨choice, hmem, rfl⟩ := List.mem_map.mp hb
    rcases Nfa.mem_countChoices.mp hmem with ⟨-, rfl⟩ | ⟨hleave, -⟩
    · exact hf.moves rfl entry (by simp) _
    · exact absurd hleave hmin
  yields x hx hcounts := by
    have hstate : (x.goTo hi).thread.state = hi := rfl
    have hsteps : nfa.steps text text.size (x.goTo hi) = [(x.setCount counter 0).goTo lo] := by
      rw [Nfa.steps_of_not_unit (by simp [hreset])]
      simp only [Thread.successors, hstate, hreset, List.map_singleton]
      rfl
    refine Nfa.yields_of_steps (by simp; omega) (by simp) (by simp [hreset]) ?_
    rw [hsteps]
    have hloop := yields_counted hf hhead hincrement hconsumes hq hlo hchi 0
      (x.setCount counter 0) hx (by simpa [Configuration.setCount, Thread.setCount] using hcounts)
      (fun _ _ => Nat.zero_le _)
      (by rw [Configuration.count_setCount _ (by omega), Quantifier.countAfter, Nat.zero_min])
    refine (hloop.imp fun y hy => ⟨hy.state, hy.cursor, ?_⟩).mono fun a b h =>
      h.mono (Nat.le_refl lo) (Nat.le_succ hi)
    exact (x.sameCounts_setCount 0 (Nat.le_refl counter) hchi).trans hy.counts

end Fragment

end UnitRegex
