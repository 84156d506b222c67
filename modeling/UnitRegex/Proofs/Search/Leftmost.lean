import UnitRegex.Proofs.Automaton.Priority
import UnitRegex.Proofs.Search.Simulation

/-!
The leftmost match of a pattern. Backtracking finds it, and so does the simulation of an automaton
of the pattern, also when it may only look at the text up to the end of the match.
-/

namespace UnitRegex

namespace Nfa

variable {nfa : Nfa} {text : Text} {stop : Nat}

theorem mem_attempts {start : Nat} {anchored : Bool} (hle : start ≤ stop) {i : Nat} :
    i ∈ attempts start stop anchored start ↔
      start ≤ i ∧ i ≤ stop ∧ (anchored = true → i = start) := by
  cases anchored with
  | true =>
    simp only [attempts, if_true, List.mem_singleton, forall_const]
    omega
  | false =>
    simp only [attempts, Bool.false_eq_true, if_false, List.mem_range'_1, false_implies, and_true]
    omega

/-- The attempts find what the first successful one finds. -/
theorem findSome?_attempts_eq_some_iff {β : Type} {f : Nat → Option β} {start : Nat}
    {anchored : Bool} {b : β} (hle : start ≤ stop) :
    (attempts start stop anchored start).findSome? f = some b ↔
      ∃ i, start ≤ i ∧ i ≤ stop ∧ (anchored = true → i = start) ∧ f i = some b ∧
        ∀ j, start ≤ j → j < i → f j = none := by
  cases anchored with
  | true =>
    simp only [attempts, if_true, List.findSome?_singleton, forall_const]
    constructor
    · exact fun hb => ⟨start, Nat.le_refl _, hle, rfl, hb, fun j _ _ => by omega⟩
    · rintro ⟨i, -, -, rfl, hb, -⟩
      exact hb
  | false =>
    simp only [attempts, Bool.false_eq_true, if_false, false_implies, true_and,
      findSome?_range'_eq_some_iff]
    refine exists_congr fun i => and_congr_right fun hstart => and_congr_left fun _ => ?_
    omega

theorem size_slots_of_mem_successors {t u : Thread} {cursor : Nat}
    (h : u ∈ t.successors nfa text cursor) : u.slots.size = t.slots.size := by
  unfold Thread.successors at h
  cases hs : nfa.state t.state <;> simp only [hs] at h
  case unit => simp at h
  case accept => simp at h
  case split targets =>
    obtain ⟨s, -, rfl⟩ := List.mem_map.mp h
    rfl
  case assert guard next =>
    split at h
    · obtain rfl := List.mem_singleton.mp h
      rfl
    · simp at h
  case loop counter low high greedy body exit =>
    obtain ⟨choice, -, rfl⟩ := List.mem_map.mp h
    rfl
  all_goals
    obtain rfl := List.mem_singleton.mp h
    simp [Slots.unsetGroups, Thread.setCount]

/-- A search leaves as many slots as there were. -/
theorem size_slots_of_first (h : nfa.Grounded) {x y : Configuration}
    (hfirst : nfa.first h text stop x = some y) : y.thread.slots.size = x.thread.slots.size := by
  induction x using (h.wellFounded text).induction with
  | _ x ih =>
    by_cases haccept : nfa.state x.state = .accept
    · rw [first_of_accept h haccept] at hfirst
      obtain rfl := Option.some.inj hfirst
      rfl
    · rw [first_eq_findSome? h haccept] at hfirst
      obtain ⟨z, hz, hzy⟩ := List.exists_of_findSome?_eq_some hfirst
      rw [ih z (stepOrder_of_mem_steps hz) hzy]
      rcases mem_steps hz with ⟨_, _, _, _, _, _, hthread⟩ | ⟨-, hmem⟩
      · rw [hthread]
      · exact size_slots_of_mem_successors hmem

end Nfa

namespace Pattern

/-- The state behind the preferred match at a position. -/
def matchAt? (p : Pattern) (text : Text) (start : Nat) : Option MatchState :=
  (p.outcomes text ⟨start, Slots.unset p.groupCount⟩).head?

/-- The state behind the preferred match at the first position from `start` on that has one. A
sticky pattern only matches at `start` itself. -/
def leftmost? (p : Pattern) (text : Text) (start : Nat) : Option MatchState :=
  (Nfa.attempts start text.size p.flags.sticky start).findSome? (p.matchAt? text)

/-- The first position from `start` on at which a pattern matches, and the match there. -/
structure FirstMatch (p : Pattern) (text : Text) (start i : Nat) (y : MatchState) : Prop where
  start_le : start ≤ i
  le_size : i ≤ text.size
  isMatch : p.matchAt? text i = some y
  earlier : ∀ j, start ≤ j → j < i → p.matchAt? text j = none

theorem exists_of_leftmost? {p : Pattern} {text : Text} {start : Nat} {y : MatchState}
    (hstart : start ≤ text.size) (h : p.leftmost? text start = some y) :
    ∃ i, p.FirstMatch text start i y ∧ (p.flags.sticky = true → i = start) := by
  obtain ⟨i, hle, hi, hsticky, hy, hnone⟩ := (Nfa.findSome?_attempts_eq_some_iff hstart).mp h
  exact ⟨i, ⟨hle, hi, hy, hnone⟩, hsticky⟩

/-- The whole match is group 0. -/
theorem bounds_of_mem_outcomes {p : Pattern} {text : Text} {x y : MatchState}
    (h : y ∈ p.outcomes text x) (hsize : 2 ≤ y.slots.size) :
    y.slots.start 0 = x.cursor ∧ y.slots.stop 0 = y.cursor := by
  obtain ⟨z, -, rfl⟩ := List.mem_map.mp h
  simp only [MatchState.recordAny, MatchState.record, Slots.setStart, Slots.setStop,
    Array.size_setIfInBounds] at hsize
  have hlt : 0 < z.slots.size := by omega
  have hlt' : 1 < z.slots.size := by omega
  simp [MatchState.recordAny, MatchState.record, Slots.setStart, Slots.setStop, Slots.start,
    Slots.stop, hlt, hlt']

/-- Backtracking finds the leftmost match. -/
theorem find_eq_leftmost? (p : Pattern) (text : Text) {start : Nat} (hstart : start ≤ text.size) :
    p.haltingProgram.find text start =
      match p.leftmost? text start with
      | some y => ⟨y.slots⟩
      | none => .noMatch := by
  have hat : ∀ i, p.haltingProgram.matchAt? text i = (p.matchAt? text i).map MatchState.slots := by
    intro i
    rw [matchAt?, ← show (p.haltingProgram.start i).matchState =
      ⟨i, Slots.unset p.groupCount⟩ from rfl, ← p.runFrom_eq_head? text _ rfl
      (by simp [Program.start]), Option.map_map]
    rfl
  have hfrom : ∀ attempts i, p.haltingProgram.matchFrom? text i attempts =
      ((List.range' i attempts).findSome? (p.matchAt? text)).map MatchState.slots := by
    intro attempts
    induction attempts with
    | zero => exact fun _ => rfl
    | succ attempts ih =>
      intro i
      rw [HaltingProgram.matchFrom?, hat, List.range'_succ, List.findSome?_cons]
      cases p.matchAt? text i with
      | some y => rfl
      | none => exact ih (i + 1)
  have hattempts : Nfa.attempts start text.size p.flags.sticky start =
      List.range' start (if p.flags.sticky then 1 else text.size - start + 1) := by
    unfold Nfa.attempts
    cases p.flags.sticky with
    | true => simp
    | false =>
      simp only [Bool.false_eq_true, if_false]
      congr 1
      omega
  have hflags : p.haltingProgram.flags = p.flags := rfl
  rw [HaltingProgram.find, if_neg (by omega), hflags, hfrom, leftmost?, hattempts]
  cases (List.range' start _).findSome? (p.matchAt? text) <;> rfl

namespace Compiled

variable {p : Pattern} {nfa : Nfa} {text : Text}

/-- What a search from the start of the automaton finds is the preferred match. -/
theorem first_eq (h : p.Compiled nfa) {i : Nat} (hi : i ≤ text.size) :
    (nfa.first h.realizes.grounded text text.size ⟨i, Thread.initial nfa⟩).map
      Configuration.matchState = p.matchAt? text i := by
  have hfirst := h.realizes.first_eq (x := ⟨i, Thread.initial nfa⟩) hi
    (by simp [Thread.initial])
  have hview : (Configuration.mk i (Thread.initial nfa)).matchState =
      ⟨i, Slots.unset p.groupCount⟩ := by
    simp only [Configuration.matchState, Thread.initial, h.groupCount]
  rwa [hview] at hfirst

theorem exists_first (h : p.Compiled nfa) {i : Nat} (hi : i ≤ text.size) {y : MatchState}
    (hy : p.matchAt? text i = some y) :
    ∃ z, nfa.first h.realizes.grounded text text.size ⟨i, Thread.initial nfa⟩ = some z ∧
      z.matchState = y := by
  rw [← h.first_eq hi] at hy
  exact Option.map_eq_some_iff.mp hy

/-- The preferred match lies in the text, and its bounds are those of group 0. -/
theorem bounds (h : p.Compiled nfa) (hgroups : 1 ≤ p.groupCount) {i : Nat} (hi : i ≤ text.size)
    {y : MatchState} (hy : p.matchAt? text i = some y) :
    i ≤ y.cursor ∧ y.cursor ≤ text.size ∧ y.slots.size = 2 * p.groupCount ∧
      y.slots.start 0 = i ∧ y.slots.stop 0 = y.cursor := by
  obtain ⟨z, hz, rfl⟩ := h.exists_first hi hy
  have hsize : z.thread.slots.size = 2 * p.groupCount := by
    rw [Nfa.size_slots_of_first h.realizes.grounded hz]
    simp [Thread.initial, Slots.unset, h.groupCount]
  have hmem : z.matchState ∈ p.outcomes text ⟨i, Slots.unset p.groupCount⟩ :=
    List.mem_of_head? hy
  obtain ⟨hstart, hstop⟩ := bounds_of_mem_outcomes hmem
    (by simp only [Configuration.matchState]; omega)
  exact ⟨Nfa.cursor_le_of_first h.realizes.grounded h.direction hz,
    Nfa.cursor_le_size_of_first h.realizes.grounded hi hz, hsize, hstart, hstop⟩

/-- With a limit behind the end of the match a search finds the same. -/
theorem threadSlots_eq (h : p.Compiled nfa) {i stop : Nat} (hi : i ≤ text.size)
    (hstop : stop ≤ text.size) (hmatch : ∀ y, p.matchAt? text i = some y → y.cursor ≤ stop) :
    nfa.threadSlots h.realizes.grounded text stop i (Thread.initial nfa) =
      (p.matchAt? text i).map MatchState.slots := by
  obtain ⟨hnone, hsome⟩ := Nfa.first_of_limit h.realizes.grounded h.direction hstop
    ⟨i, Thread.initial nfa⟩
  rw [Nfa.threadSlots]
  cases hy : p.matchAt? text i with
  | none =>
    have hfirst := h.first_eq hi
    rw [hy, Option.map_eq_none_iff] at hfirst
    rw [hnone hfirst]
    rfl
  | some y =>
    obtain ⟨z, hz, rfl⟩ := h.exists_first hi hy
    rw [hsome z hz (hmatch _ hy)]
    rfl

theorem findSome?_threadSlots (h : p.Compiled nfa) {stop : Nat} (hstop : stop ≤ text.size)
    {l : List Nat} (hl : ∀ i ∈ l, i ≤ text.size)
    (hmatch : ∀ y, l.findSome? (p.matchAt? text) = some y → y.cursor ≤ stop) :
    (l.findSome? fun i => nfa.threadSlots h.realizes.grounded text stop i (Thread.initial nfa)) =
      (l.findSome? (p.matchAt? text)).map MatchState.slots := by
  induction l with
  | nil => rfl
  | cons i l ih =>
    have hfirst := h.threadSlots_eq (hl i (by simp)) hstop fun y hy => hmatch y (by simp [hy])
    rw [List.findSome?_cons, List.findSome?_cons, hfirst]
    cases hy : p.matchAt? text i with
    | none => exact ih (fun j hj => hl j (by simp [hj])) fun y hl => hmatch y (by simp [hy, hl])
    | some y => rfl

/-- A simulation up to the end of the leftmost match, or behind it, finds this match; where there is
none it finds nothing. -/
theorem findSlots_eq (h : p.Compiled nfa) (hgroups : 1 ≤ p.groupCount) {start stop : Nat}
    (anchored : Bool) (hle : start ≤ stop) (hstop : stop ≤ text.size)
    (hmatch : ∀ y, (Nfa.attempts start text.size anchored start).findSome? (p.matchAt? text) =
      some y → y.cursor ≤ stop) :
    nfa.findSlots text start stop anchored =
      ((Nfa.attempts start text.size anchored start).findSome? (p.matchAt? text)).map
        MatchState.slots := by
  rw [Nfa.findSlots_eq h.realizes.grounded h.direction (by omega), Nat.min_eq_left hstop]
  -- The attempts behind the limit come last, and what they find ends behind it.
  obtain ⟨rest, hrest, hbehind⟩ : ∃ rest, Nfa.attempts start text.size anchored start =
      Nfa.attempts start stop anchored start ++ rest ∧
        ∀ i ∈ rest, stop < i ∧ i ≤ text.size := by
    unfold Nfa.attempts
    cases anchored with
    | true => exact ⟨[], by simp, by simp⟩
    | false =>
      refine ⟨List.range' (stop + 1) (text.size - stop), ?_, fun i hi => ?_⟩
      · have happend : List.range' start (stop + 1 - start) ++
            List.range' (start + (stop + 1 - start)) (text.size - stop) =
            List.range' start (stop + 1 - start + (text.size - stop)) := List.range'_append_1
        rw [show start + (stop + 1 - start) = stop + 1 by omega,
          show stop + 1 - start + (text.size - stop) = text.size + 1 - start by omega] at happend
        exact happend.symm
      · have := List.mem_range'_1.mp hi
        omega
  have hin : ∀ i ∈ Nfa.attempts start stop anchored start, i ≤ text.size := fun i hi =>
    Nat.le_trans ((Nfa.mem_attempts hle).mp hi).2.1 hstop
  have hall : (Nfa.attempts start text.size anchored start).findSome? (p.matchAt? text) =
      (Nfa.attempts start stop anchored start).findSome? (p.matchAt? text) := by
    rw [hrest, List.findSome?_append] at hmatch ⊢
    cases hfirst : (Nfa.attempts start stop anchored start).findSome? (p.matchAt? text) with
    | some y => rfl
    | none =>
      rw [hfirst, Option.none_or] at hmatch
      rw [Option.none_or, List.findSome?_eq_none_iff]
      by_contra hsome
      obtain ⟨y, hy⟩ : ∃ y, rest.findSome? (p.matchAt? text) = some y := by
        cases hy : rest.findSome? (p.matchAt? text) with
        | none => exact absurd (List.findSome?_eq_none_iff.mp hy) hsome
        | some y => exact ⟨y, rfl⟩
      obtain ⟨i, hi, hiy⟩ := List.exists_of_findSome?_eq_some hy
      obtain ⟨hlt, hsize⟩ := hbehind i hi
      have hend := hmatch y hy
      obtain ⟨hfrom, -⟩ := h.bounds hgroups hsize hiy
      omega
  rw [hall] at hmatch ⊢
  exact h.findSome?_threadSlots hstop hin hmatch

/-- The simulation finds the leftmost match. -/
theorem findSlots_eq_leftmost? (h : p.Compiled nfa) (hgroups : 1 ≤ p.groupCount) {start : Nat}
    (hstart : start ≤ text.size) :
    nfa.findSlots text start text.size p.flags.sticky =
      (p.leftmost? text start).map MatchState.slots := by
  refine h.findSlots_eq hgroups p.flags.sticky hstart (Nat.le_refl _) fun y hy => ?_
  obtain ⟨i, hi, hiy⟩ := List.exists_of_findSome?_eq_some hy
  exact (h.bounds hgroups ((Nfa.mem_attempts hstart).mp hi).2.1 hiy).2.1

end Compiled

end Pattern

end UnitRegex
