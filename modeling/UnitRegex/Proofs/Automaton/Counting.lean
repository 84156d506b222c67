import UnitRegex.Proofs.Automaton.CountedLoops

/-!
The counters along a run of an automaton. Whatever is read, a counter other than zero is that of the
loop that the run is in, or of a copy of it. It does not exceed the limit of the loop, and as every
iteration takes a unit, it does not exceed the number of units by more than the iteration that the
run may have started in.
-/

namespace UnitRegex

theorem getD_set_le (counts : List Nat) (counter value : Nat) :
    (counts.set counter value)[counter]?.getD 0 ≤ value := by
  rw [List.getElem?_set_self']
  cases counts[counter]? <;> simp

theorem set_getD (counts : List Nat) (counter : Nat) :
    counts.set counter (counts[counter]?.getD 0) = counts := by
  by_cases hlt : counter < counts.length
  · simp [hlt]
  · exact List.set_eq_of_length_le (Nat.le_of_not_lt hlt)

namespace Nfa

/-- The states with their counters that a run comes to with `n` units, whatever units these are. It
starts with all counters at zero, in any state. -/
inductive Comes (nfa : Nfa) : Nat → Nat × List Nat → Prop
  | start (n s : Nat) : Comes nfa n (s, List.replicate nfa.counters 0)
  | pass {n : Nat} {a b : Nat × List Nat} (h : Comes nfa n a) (hb : b ∈ nfa.epsilon a) :
    Comes nfa n b
  | read {n s next : Nat} {counts : List Nat} {set : CharSet} (h : Comes nfa n (s, counts))
    (hs : nfa.state s = .unit set next) : Comes nfa (n + 1) (next, counts)

/-- What the counters satisfy where a run needs a unit or accepts: each one is at most the limit of
its loops, it is zero outside of them, and inside of a loop with a maximum it is below that. -/
structure KeepsCounts (nfa : Nfa) (s : Nat) (counts : List Nat) : Prop where
  length_eq : counts.length = nfa.counters
  le_limit : ∀ head counter low high, (nfa.state head).bounds? = some (counter, low, high) →
    counts[counter]?.getD 0 ≤ high.getD low
  eq_zero : ∀ counter, ¬nfa.InLoop counter s → counts[counter]?.getD 0 = 0
  lt_most : ∀ head counter low most, (nfa.state head).bounds? = some (counter, low, some most) →
    nfa.InLoop counter s → counts[counter]?.getD 0 < most

/-- A state does not count beyond 32 bits. -/
def CountFits (nfa : Nfa) (s : Nat) (counts : List Nat) : Prop :=
  ∀ counter limit next, nfa.state s = .increment counter limit next →
    counts[counter]?.getD 0 + 1 < 2 ^ 32

/-- Where a counter stands after `n` units: at zero, or at a place of one of its loops. As long as
no unit of the body has been read, the iteration is not paid for. -/
inductive Counting (nfa : Nfa) (counter n : Nat) (a : Nat × List Nat) : Prop
  | zero (h : a.2[counter]?.getD 0 = 0)
  | head {low head last : Nat} {high : Option Nat}
    (h : nfa.CountedLoop 0 nfa.size counter low high head last) (hplace : a.1 = head)
    (hlimit : a.2[counter]?.getD 0 ≤ high.getD low) (hread : a.2[counter]?.getD 0 ≤ n + 1)
  | count {low head last : Nat} {high : Option Nat}
    (h : nfa.CountedLoop 0 nfa.size counter low high head last) (hplace : a.1 = head + 1)
    (hread : a.2[counter]?.getD 0 ≤ n)
  | body {low head last : Nat} {high : Option Nat}
    (h : nfa.CountedLoop 0 nfa.size counter low high head last) (hlo : head + 2 ≤ a.1)
    (hhi : a.1 < last) (hlimit : a.2[counter]?.getD 0 ≤ high.getD low)
    (hmost : ∀ most, high = some most → a.2[counter]?.getD 0 < most)
    (hread : a.2[counter]?.getD 0 ≤ n ∨ a.2[counter]?.getD 0 ≤ n + 1 ∧
      ∃ greedy entry exit counts, nfa.state head = .loop counter low high greedy entry exit ∧
        nfa.WalkWithin (head + 2) last (entry, counts) a)

variable {nfa : Nfa} {counter n : Nat} {a b : Nat × List Nat}

theorem length_of_mem_epsilon (h : b ∈ nfa.epsilon a) : b.2.length = a.2.length := by
  unfold epsilon at h
  cases hs : nfa.state a.1 <;> simp only [hs] at h
  case unit => simp at h
  case accept => simp at h
  case split =>
    obtain ⟨s, -, rfl⟩ := List.mem_map.mp h
    rfl
  case loop =>
    obtain ⟨choice, -, rfl⟩ := List.mem_map.mp h
    simp
  all_goals
    obtain rfl := List.mem_singleton.mp h
    simp

/-- A state that does not touch a counter leaves it as it is. -/
theorem getD_of_mem_epsilon (hcounter : (nfa.state a.1).counter? ≠ some counter)
    (h : b ∈ nfa.epsilon a) : b.2[counter]?.getD 0 = a.2[counter]?.getD 0 := by
  unfold epsilon at h
  cases hs : nfa.state a.1 <;> simp only [hs, NfaState.counter?, ne_eq, Option.some.injEq] at h hcounter
  case unit => simp at h
  case accept => simp at h
  case split =>
    obtain ⟨s, -, rfl⟩ := List.mem_map.mp h
    rfl
  case loop =>
    obtain ⟨choice, -, rfl⟩ := List.mem_map.mp h
    simp [hcounter]
  case reset =>
    obtain rfl := List.mem_singleton.mp h
    simp [hcounter]
  case increment =>
    obtain rfl := List.mem_singleton.mp h
    simp [hcounter]
  all_goals
    obtain rfl := List.mem_singleton.mp h
    rfl

theorem Comes.length_eq (h : nfa.Comes n a) : a.2.length = nfa.counters := by
  induction h with
  | start => simp
  | pass _ hb ih => rw [length_of_mem_epsilon hb, ih]
  | read _ _ ih => exact ih

/-- Where an iteration is counted, a unit has been read for it. -/
theorem Counting.le_of_increment (ha : nfa.Counting counter n a) {limit next : Nat}
    (hs : nfa.state a.1 = .increment counter limit next) : a.2[counter]?.getD 0 ≤ n := by
  cases ha with
  | zero h => omega
  | head h hplace =>
    have hbounds := h.bounds?
    rw [← hplace, hs] at hbounds
    cases hbounds
  | count _ _ hread => exact hread
  | body h hlo hhi => exact absurd (by rw [hs]; rfl) (h.apart _ hlo hhi)

/-- A step that does not touch the counter. -/
theorem Counting.pass (ha : nfa.Counting counter n a)
    (hcounter : (nfa.state a.1).counter? ≠ some counter) (hb : b ∈ nfa.epsilon a) :
    nfa.Counting counter n b := by
  have hsame := getD_of_mem_epsilon hcounter hb
  cases ha with
  | zero h => exact .zero (hsame.trans h)
  | head h hplace =>
    rw [hplace] at hcounter
    exact absurd (NfaState.counter?_of_bounds? h.bounds?) hcounter
  | count h hplace =>
    rw [hplace, h.increment] at hcounter
    exact absurd rfl hcounter
  | @body low head last high h hlo hhi hlimit hmost hread =>
    obtain ⟨s, counts⟩ := a
    obtain ⟨hlo', hhi'⟩ := h.closed s hlo hhi counts b hb
    by_cases hplace : b.1 = head + 1
    · -- The body is not left before a unit of it has been read.
      refine .count h hplace ?_
      rw [hsame]
      rcases hread with hread | ⟨-, greedy, entry, exit, counts', hhead, hwalk⟩
      · exact hread
      · obtain ⟨greedy', entry', exit', hhead', -, -, hnowalk⟩ := h.entry
        rw [hhead] at hhead'
        cases hhead'
        obtain ⟨t, counts''⟩ := b
        obtain rfl : t = head + 1 := hplace
        exact absurd (hwalk.tail ⟨⟨hlo, hhi⟩, hb⟩) (hnowalk counts' counts'')
    · refine .body h (by omega) hhi' (hsame ▸ hlimit) (hsame ▸ hmost) ?_
      rw [hsame]
      refine hread.imp_right fun ⟨hle, greedy, entry, exit, counts', hhead, hwalk⟩ => ?_
      exact ⟨hle, greedy, entry, exit, counts', hhead, hwalk.tail ⟨⟨hlo, hhi⟩, hb⟩⟩

section

variable (hloops : nfa.CountsWithin 0 nfa.size 0 nfa.counters)
include hloops

theorem CountsWithin.exists_loop {s : Nat} (h : (nfa.state s).counter? = some counter) :
    ∃ low high head last, nfa.CountedLoop 0 nfa.size counter low high head last ∧
      (s = head ∨ s = head + 1 ∨ s = last) := by
  have hlt : s < nfa.size := by
    by_contra hge
    rw [state_of_size_le (Nat.le_of_not_lt hge)] at h
    cases h
  exact (hloops.loops s (Nat.zero_le _) hlt counter h).2

theorem CountsWithin.bounds_eq {s t : Nat} {x y : Nat × Option Nat}
    (hs : (nfa.state s).bounds? = some (counter, x))
    (ht : (nfa.state t).bounds? = some (counter, y)) : x = y := by
  have hlt : ∀ {s : Nat} {x : Nat × Option Nat}, (nfa.state s).bounds? = some (counter, x) →
      s < nfa.size := by
    intro s x hs
    by_contra hge
    rw [state_of_size_le (Nat.le_of_not_lt hge)] at hs
    cases hs
  exact hloops.agree s t (Nat.zero_le _) (hlt hs) (Nat.zero_le _) (hlt ht) counter x y hs ht

/-- A loop that encloses something is complete. -/
theorem CountsWithin.loop_of_encloses {head last : Nat} (h : nfa.Encloses counter head last) :
    ∃ low high, nfa.CountedLoop 0 nfa.size counter low high head last := by
  obtain ⟨low, high, head', last', hloop, hplace⟩ :=
    hloops.exists_loop (s := last) (by rw [h.reset]; rfl)
  obtain ⟨greedy, entry, exit, hhead, -⟩ := hloop.entry
  have hreset := h.reset
  rcases hplace with rfl | rfl | rfl
  · rw [hhead] at hreset
    cases hreset
  · rw [hloop.increment] at hreset
    cases hreset
  · rw [hloop.reset] at hreset
    obtain ⟨-, rfl⟩ := NfaState.reset.inj hreset
    exact ⟨low, high, hloop⟩

/-- At the head of a loop its counter is within the limit, and few iterations have been counted. -/
theorem CountsWithin.le_of_head (ha : nfa.Counting counter n a) {low : Nat} {high : Option Nat}
    (hbounds : (nfa.state a.1).bounds? = some (counter, low, high)) :
    a.2[counter]?.getD 0 ≤ high.getD low ∧ a.2[counter]?.getD 0 ≤ n + 1 := by
  cases ha with
  | zero h => omega
  | head h hplace hlimit hread =>
    obtain ⟨rfl, rfl⟩ := Prod.mk.inj (hloops.bounds_eq h.bounds? hbounds)
    exact ⟨hlimit, hread⟩
  | count h hplace =>
    rw [hplace, h.increment] at hbounds
    cases hbounds
  | body h hlo hhi =>
    exact absurd (NfaState.counter?_of_bounds? hbounds) (h.apart _ hlo hhi)

/-- A step of the head of a loop, of the state that counts or of the one that resets. -/
theorem CountsWithin.counting_of_touched (ha : nfa.Counting counter n a)
    (hcounter : (nfa.state a.1).counter? = some counter) (hb : b ∈ nfa.epsilon a) :
    nfa.Counting counter n b := by
  obtain ⟨low, high, head, last, hloop, hplace⟩ := hloops.exists_loop hcounter
  rcases hplace with hplace | hplace | hplace
  · have hbounds := hloop.bounds?
    rw [← hplace] at hbounds
    obtain ⟨hlimit, hread⟩ := hloops.le_of_head ha hbounds
    obtain ⟨greedy, entry, exit, hhead, hlo, hhi, -⟩ := hloop.entry
    rw [epsilon, hplace, hhead] at hb
    obtain ⟨choice, hchoice, rfl⟩ := List.mem_map.mp hb
    rcases mem_countChoices.mp hchoice with ⟨hmost, rfl⟩ | ⟨-, rfl⟩
    · -- The iteration leaves the counter as it is.
      dsimp only
      rw [set_getD]
      refine .body hloop hlo hhi hlimit (fun most hhigh => ?_)
        (.inr ⟨hread, greedy, entry, exit, a.2, hhead, .refl⟩)
      simpa [hhigh] using hmost
    · exact .zero (Nat.le_zero.mp (getD_set_le _ _ _))
  · have hread := ha.le_of_increment (hplace ▸ hloop.increment)
    rw [epsilon, hplace, hloop.increment] at hb
    obtain rfl := List.mem_singleton.mp hb
    have hle := getD_set_le a.2 counter (min (a.2[counter]?.getD 0 + 1) (high.getD low))
    exact .head hloop rfl (by dsimp only; omega) (by dsimp only; omega)
  · rw [epsilon, hplace, hloop.reset] at hb
    obtain rfl := List.mem_singleton.mp hb
    exact .zero (Nat.le_zero.mp (getD_set_le _ _ _))

/-- A unit leads on inside of the loop, or from a copy into the loop. -/
theorem CountsWithin.counting_of_read {s next : Nat} {counts : List Nat} {set : CharSet}
    (ha : nfa.Counting counter n (s, counts)) (hs : nfa.state s = .unit set next) :
    nfa.Counting counter (n + 1) (next, counts) := by
  cases ha with
  | zero h => exact .zero h
  | head h hplace =>
    have hbounds := h.bounds?
    rw [← hplace, hs] at hbounds
    cases hbounds
  | count h hplace =>
    have hincrement := h.increment
    rw [← hplace, hs] at hincrement
    cases hincrement
  | body h hlo hhi hlimit hmost hread =>
    obtain ⟨head', last', -, -, hencloses, hlo', hhi'⟩ := h.units s hlo hhi set next hs
    obtain ⟨low', high', hloop'⟩ := hloops.loop_of_encloses hencloses
    obtain ⟨rfl, rfl⟩ := Prod.mk.inj (hloops.bounds_eq hloop'.bounds? h.bounds?)
    have hread : counts[counter]?.getD 0 ≤ n + 1 := by
      rcases hread with hread | ⟨hread, -⟩
      · exact Nat.le_succ_of_le hread
      · exact hread
    by_cases hplace : next = head' + 1
    · exact .count hloop' hplace hread
    · exact .body hloop' (by dsimp only; omega) hhi' hlimit hmost (.inl hread)

/-- Along every run each counter is at zero or in one of its loops. -/
theorem CountsWithin.counting_of_comes (h : nfa.Comes n a) (counter : Nat) :
    nfa.Counting counter n a := by
  induction h with
  | start n s =>
    refine .zero ?_
    rw [List.getElem?_replicate]
    split <;> rfl
  | @pass n a b _ hb ih =>
    by_cases hcounter : (nfa.state a.1).counter? = some counter
    · exact hloops.counting_of_touched ih hcounter hb
    · exact ih.pass hcounter hb
  | read _ hs ih => exact hloops.counting_of_read ih hs

/-- Where a run needs a unit or accepts, its counters are those of the loops it is in. -/
theorem CountsWithin.keepsCounts {s : Nat} {counts : List Nat} (h : nfa.Comes n (s, counts))
    (hcounter : (nfa.state s).counter? = none) : nfa.KeepsCounts s counts := by
  have hcounting := hloops.counting_of_comes h
  -- Such a state is neither a head nor one that counts.
  have hcases : ∀ counter, counts[counter]?.getD 0 = 0 ∨ ∃ low high head last,
      nfa.CountedLoop 0 nfa.size counter low high head last ∧ head < s ∧ s < last ∧
        counts[counter]?.getD 0 ≤ high.getD low ∧
        ∀ most, high = some most → counts[counter]?.getD 0 < most := by
    intro counter
    cases hcounting counter with
    | zero h => exact .inl h
    | head h hplace =>
      have hbounds := NfaState.counter?_of_bounds? h.bounds?
      rw [← hplace, hcounter] at hbounds
      cases hbounds
    | count h hplace =>
      have hincrement := h.increment
      rw [← hplace] at hincrement
      rw [hincrement] at hcounter
      cases hcounter
    | body h hlo hhi hlimit hmost =>
      exact .inr ⟨_, _, _, _, h, by dsimp only at hlo; omega, hhi, hlimit, hmost⟩
  refine ⟨h.length_eq, fun head counter low high hbounds => ?_, fun counter hout => ?_,
    fun head counter low most hbounds hin => ?_⟩
  · rcases hcases counter with hzero | ⟨low', high', head', last', hloop, -, -, hlimit, -⟩
    · omega
    · obtain ⟨rfl, rfl⟩ := Prod.mk.inj (hloops.bounds_eq hloop.bounds? hbounds)
      exact hlimit
  · rcases hcases counter with hzero | ⟨low, high, head, last, hloop, hlo, hhi, -⟩
    · exact hzero
    · exact absurd ⟨head, last, hloop.encloses, hlo, hhi⟩ hout
  · rcases hcases counter with hzero | ⟨low', high', head', last', hloop, -, -, -, hmost⟩
    · obtain ⟨head', last', hencloses, -⟩ := hin
      obtain ⟨low', high', hloop⟩ := hloops.loop_of_encloses hencloses
      obtain ⟨rfl, rfl⟩ := Prod.mk.inj (hloops.bounds_eq hloop.bounds? hbounds)
      have := hloop.positive most rfl
      omega
    · obtain ⟨rfl, rfl⟩ := Prod.mk.inj (hloops.bounds_eq hloop.bounds? hbounds)
      exact hmost most rfl

/-- A run over fewer than `2 ^ 32 - 1` units does not count beyond 32 bits. -/
theorem CountsWithin.countFits (h : nfa.Comes n a) (hn : n + 1 < 2 ^ 32) :
    nfa.CountFits a.1 a.2 := by
  intro counter limit next hs
  have hle := (hloops.counting_of_comes h counter).le_of_increment hs
  omega

end

end Nfa

end UnitRegex
