import UnitRegex.Proofs.Automaton.WellFormed

/-!
The states of the loops that count. A counter is set and read by the head of a loop, by the state
that counts behind the head, and by the state that resets the counter behind the body, and by those
of copies of the loop. Between these states no other one touches the counter, and a unit of the body
leads back into the loop or, from a copy, into the loop that was copied.
-/

namespace UnitRegex

namespace NfaState

/-- The counter that a state sets or reads. -/
def counter? : NfaState → Option Nat
  | reset counter _ | loop counter _ _ _ _ _ | increment counter _ _ => some counter
  | unit _ _ | split _ | assert _ _ | save _ _ | unset _ _ _ | accept => none

/-- The counter of the head of a loop with the bounds of the loop. -/
def bounds? : NfaState → Option (Nat × Nat × Option Nat)
  | loop counter low high _ _ _ => some (counter, low, high)
  | _ => none

@[simp] theorem counter?_mapEpsilon (state : NfaState) (rename : Nat → Nat) :
    (state.mapEpsilon rename).counter? = state.counter? := by
  cases state <;> rfl

@[simp] theorem bounds?_mapEpsilon (state : NfaState) (rename : Nat → Nat) :
    (state.mapEpsilon rename).bounds? = state.bounds? := by
  cases state <;> rfl

theorem bounds?_eq_some {state : NfaState} {counter low : Nat} {high : Option Nat} :
    state.bounds? = some (counter, low, high) ↔
      ∃ greedy body exit, state = loop counter low high greedy body exit := by
  cases state <;> simp [bounds?]

theorem counter?_of_bounds? {state : NfaState} {counter low : Nat} {high : Option Nat}
    (h : state.bounds? = some (counter, low, high)) : state.counter? = some counter := by
  obtain ⟨greedy, body, exit, rfl⟩ := bounds?_eq_some.mp h
  rfl

end NfaState

namespace Nfa

/-- A loop that counts has its head in front and the state that resets its counter behind. -/
structure Encloses (nfa : Nfa) (counter head last : Nat) : Prop where
  bounds : ∃ low high, (nfa.state head).bounds? = some (counter, low, high)
  reset : nfa.state last = .reset counter head

/-- A state belongs to a loop with a counter, or to a copy of it. -/
def InLoop (nfa : Nfa) (counter s : Nat) : Prop :=
  ∃ head last, nfa.Encloses counter head last ∧ head < s ∧ s < last

/-- A walk without a unit that stays inside of a stretch up to its last step. -/
def WalkWithin (nfa : Nfa) (lo hi : Nat) : Nat × List Nat → Nat × List Nat → Prop :=
  Relation.ReflTransGen fun a b => (lo ≤ a.1 ∧ a.1 < hi) ∧ b ∈ nfa.epsilon a

/-- A loop that counts, among the states from `lo` up to `hi`. Its body is left without a unit only
towards the state that counts, which takes a unit at least. -/
structure CountedLoop (nfa : Nfa) (lo hi counter low : Nat) (high : Option Nat) (head last : Nat) :
    Prop where
  lo_le : lo ≤ head
  lt_hi : last < hi
  entry : ∃ greedy body exit, nfa.state head = .loop counter low high greedy body exit ∧
    head + 2 ≤ body ∧ body < last ∧
      ∀ counts counts', ¬nfa.WalkWithin (head + 2) last (body, counts) (head + 1, counts')
  increment : nfa.state (head + 1) = .increment counter (high.getD low) head
  reset : nfa.state last = .reset counter head
  positive : ∀ most, high = some most → 0 < most
  apart : ∀ s, head + 2 ≤ s → s < last → (nfa.state s).counter? ≠ some counter
  closed : ∀ s, head + 2 ≤ s → s < last → ∀ counts, ∀ b ∈ nfa.epsilon (s, counts),
    head < b.1 ∧ b.1 < last
  units : ∀ s, head + 2 ≤ s → s < last → ∀ set next, nfa.state s = .unit set next →
    ∃ head' last', lo ≤ head' ∧ last' < hi ∧ nfa.Encloses counter head' last' ∧
      head' < next ∧ next < last'

/-- The counters that states from `lo` up to `hi` touch are numbered from `clo` up to `chi`. Each of
these states belongs to a loop that is complete, and loops with one counter have the same bounds. -/
structure CountsWithin (nfa : Nfa) (lo hi clo chi : Nat) : Prop where
  loops : ∀ s, lo ≤ s → s < hi → ∀ counter, (nfa.state s).counter? = some counter →
    (clo ≤ counter ∧ counter < chi) ∧ ∃ low high head last,
      nfa.CountedLoop lo hi counter low high head last ∧ (s = head ∨ s = head + 1 ∨ s = last)
  agree : ∀ s t, lo ≤ s → s < hi → lo ≤ t → t < hi → ∀ counter x y,
    (nfa.state s).bounds? = some (counter, x) → (nfa.state t).bounds? = some (counter, y) → x = y

variable {nfa : Nfa} {lo mid hi counter low head last : Nat} {high : Option Nat}

theorem CountedLoop.bounds? (h : nfa.CountedLoop lo hi counter low high head last) :
    (nfa.state head).bounds? = some (counter, low, high) := by
  obtain ⟨greedy, body, exit, hhead, -⟩ := h.entry
  exact NfaState.bounds?_eq_some.mpr ⟨greedy, body, exit, hhead⟩

theorem CountedLoop.lt (h : nfa.CountedLoop lo hi counter low high head last) : head + 2 < last := by
  obtain ⟨-, body, -, -, hlo, hhi, -⟩ := h.entry
  omega

theorem CountedLoop.encloses (h : nfa.CountedLoop lo hi counter low high head last) :
    nfa.Encloses counter head last :=
  ⟨⟨low, high, h.bounds?⟩, h.reset⟩

theorem CountedLoop.mono {lo' hi' : Nat} (h : nfa.CountedLoop lo hi counter low high head last)
    (hlo : lo' ≤ lo) (hhi : hi ≤ hi') : nfa.CountedLoop lo' hi' counter low high head last where
  lo_le := Nat.le_trans hlo h.lo_le
  lt_hi := Nat.lt_of_lt_of_le h.lt_hi hhi
  entry := h.entry
  increment := h.increment
  reset := h.reset
  positive := h.positive
  apart := h.apart
  closed := h.closed
  units s hs hs' set next hunit := by
    obtain ⟨head', last', hlo', hhi', hrest⟩ := h.units s hs hs' set next hunit
    exact ⟨head', last', Nat.le_trans hlo hlo', Nat.lt_of_lt_of_le hhi' hhi, hrest⟩

/-! ### Copies -/

section

variable {base : Nat} {rename : Nat → Nat}
  (hinside : ∀ s, lo ≤ s → s < mid → rename s = s - lo + base)
  (hcopy : ∀ s, lo ≤ s → s < mid → nfa.state (rename s) = (nfa.state s).mapEpsilon rename)

include hcopy

theorem exists_of_mem_epsilon_copy {s : Nat} (hs : lo ≤ s) (hs' : s < mid) {counts : List Nat}
    {b : Nat × List Nat} (hb : b ∈ nfa.epsilon (rename s, counts)) :
    ∃ c ∈ nfa.epsilon (s, counts), (rename c.1, c.2) = b := by
  rw [epsilon_copy (hcopy s hs hs')] at hb
  exact List.mem_map.mp hb

include hinside

/-- A walk through copies is the copy of a walk. -/
theorem WalkWithin.of_copy {first last : Nat} (hfirst : lo ≤ first) (hlast : last ≤ mid)
    (hclosed : ∀ s, first ≤ s → s < last → ∀ counts, ∀ b ∈ nfa.epsilon (s, counts),
      lo ≤ b.1 ∧ b.1 < mid) {s t : Nat} (hs : lo ≤ s ∧ s < mid) (ht : lo ≤ t ∧ t < mid)
    {counts counts' : List Nat}
    (h : nfa.WalkWithin (first - lo + base) (last - lo + base) (rename s, counts)
      (rename t, counts')) :
    nfa.WalkWithin first last (s, counts) (t, counts') := by
  let back : Nat × List Nat → Nat × List Nat := fun a => (a.1 - base + lo, a.2)
  have hback : ∀ s counts, lo ≤ s → s < mid → back (rename s, counts) = (s, counts) := by
    intro s counts hs hs'
    have := hinside s hs hs'
    exact Prod.ext (show rename s - base + lo = s by omega) rfl
  have hstep : ∀ a b, ((first - lo + base ≤ a.1 ∧ a.1 < last - lo + base) ∧ b ∈ nfa.epsilon a) →
      (first ≤ (back a).1 ∧ (back a).1 < last) ∧ back b ∈ nfa.epsilon (back a) := by
    rintro ⟨s, counts⟩ b ⟨⟨hs, hs'⟩, hb⟩
    obtain ⟨t, ht, ht', rfl⟩ := exists_rename_eq hinside hfirst hlast hs hs'
    obtain ⟨c, hc, rfl⟩ := exists_of_mem_epsilon_copy hcopy (by omega) (by omega) hb
    obtain ⟨hlo, hhi⟩ := hclosed t ht ht' counts c hc
    rw [hback t counts (by omega) (by omega), hback c.1 c.2 hlo hhi]
    exact ⟨⟨ht, ht'⟩, hc⟩
  have hwalk := Relation.ReflTransGen.lift
    (p := fun a b => (first ≤ a.1 ∧ a.1 < last) ∧ b ∈ nfa.epsilon a) back hstep _ _ h
  rwa [Function.onFun, hback s counts hs.1 hs.2, hback t counts' ht.1 ht.2] at hwalk

/-- The copy of a loop that counts is one with the same counter. Its units lead where those of the
original do. -/
theorem CountedLoop.copy (h : nfa.CountedLoop lo mid counter low high head last) (hhi : mid ≤ hi)
    (hbase : lo ≤ base) (hlast : rename last < hi) :
    nfa.CountedLoop lo hi counter low high (rename head) (rename last) := by
  have hlo := h.lo_le
  have hmid := h.lt_hi
  have hlt := h.lt
  have hhead := hinside head hlo (by omega)
  have hnext : rename (head + 1) = rename head + 1 := by
    rw [hinside _ (by omega) (by omega)]
    omega
  have hend := hinside last (by omega) hmid
  have hfirst : rename head + 2 = head + 2 - lo + base := by omega
  -- The states of the copy are the copies of the states of the loop.
  have horiginal : ∀ s, rename head + 2 ≤ s → s < rename last →
      ∃ t, head + 2 ≤ t ∧ t < last ∧ rename t = s := fun s hs hs' =>
    exists_rename_eq hinside (by omega) (Nat.le_of_lt hmid) (hfirst ▸ hs) (hend ▸ hs')
  refine ⟨by omega, hlast, ?_, ?_, ?_, h.positive, fun s hs hs' => ?_, fun s hs hs' counts b hb => ?_,
    fun s hs hs' set next hunit => ?_⟩
  · obtain ⟨greedy, body, exit, hloop, hbody, hbody', hwalk⟩ := h.entry
    have hentry := hinside body (by omega) (by omega)
    refine ⟨greedy, rename body, rename exit, ?_, by omega, by omega, fun counts counts' hcopied => ?_⟩
    · rw [hcopy head hlo (by omega), hloop]
      rfl
    · rw [hfirst, hend, ← hnext] at hcopied
      refine hwalk counts counts' (hcopied.of_copy hinside hcopy (by omega) (by omega)
        (fun s hs hs' counts b hb => ?_) (by omega) (by omega))
      have := h.closed s hs hs' counts b hb
      omega
  · rw [← hnext, hcopy _ (by omega) (by omega), h.increment]
    rfl
  · rw [hcopy last (by omega) hmid, h.reset]
    rfl
  · obtain ⟨t, ht, ht', rfl⟩ := horiginal s hs hs'
    rw [hcopy t (by omega) (by omega), NfaState.counter?_mapEpsilon]
    exact h.apart t ht ht'
  · obtain ⟨t, ht, ht', rfl⟩ := horiginal s hs hs'
    obtain ⟨c, hc, rfl⟩ := exists_of_mem_epsilon_copy hcopy (by omega) (by omega) hb
    have hclosed := h.closed t ht ht' counts c hc
    have hplace := hinside c.1 (by omega) (by omega)
    constructor <;> dsimp only <;> omega
  · obtain ⟨t, ht, ht', rfl⟩ := horiginal s hs hs'
    rw [hcopy t (by omega) (by omega)] at hunit
    have hoff : nfa.state t = .unit set next := by
      cases hstate : nfa.state t <;> simp_all [NfaState.mapEpsilon]
    obtain ⟨head', last', hlo', hlast', hrest⟩ := h.units t ht ht' set next hoff
    exact ⟨head', last', hlo', by omega, hrest⟩

end

/-! ### Stretches of states -/

namespace CountsWithin

variable {clo cmid chi : Nat}

theorem of_none (h : ∀ s, lo ≤ s → s < hi → (nfa.state s).counter? = none) :
    nfa.CountsWithin lo hi clo chi where
  loops s hlo hhi counter hs := by
    rw [h s hlo hhi] at hs
    cases hs
  agree s _ hlo hhi _ _ counter x _ hs _ := by
    have hcounter := NfaState.counter?_of_bounds? hs
    rw [h s hlo hhi] at hcounter
    cases hcounter

/-- Two stretches, one after the other, with different counters. -/
theorem trans (h : nfa.CountsWithin lo mid clo cmid) (h' : nfa.CountsWithin mid hi cmid chi)
    (hlo : lo ≤ mid) (hhi : mid ≤ hi) (hclo : clo ≤ cmid) (hchi : cmid ≤ chi) :
    nfa.CountsWithin lo hi clo chi where
  loops s hs hs' counter hcounter := by
    by_cases hlt : s < mid
    · obtain ⟨hin, low, high, head, last, hloop, hplace⟩ := h.loops s hs hlt counter hcounter
      exact ⟨by omega, low, high, head, last, hloop.mono (Nat.le_refl lo) hhi, hplace⟩
    · obtain ⟨hin, low, high, head, last, hloop, hplace⟩ :=
        h'.loops s (by omega) hs' counter hcounter
      exact ⟨by omega, low, high, head, last, hloop.mono hlo (Nat.le_refl hi), hplace⟩
  agree s t hs hs' ht ht' counter x y hx hy := by
    have hcs := NfaState.counter?_of_bounds? hx
    have hct := NfaState.counter?_of_bounds? hy
    by_cases hlt : s < mid <;> by_cases hlt' : t < mid
    · exact h.agree s t hs hlt ht hlt' counter x y hx hy
    · have := (h.loops s hs hlt counter hcs).1
      have := (h'.loops t (by omega) ht' counter hct).1
      omega
    · have := (h'.loops s (by omega) hs' counter hcs).1
      have := (h.loops t ht hlt' counter hct).1
      omega
    · exact h'.agree s t (by omega) hs' (by omega) ht' counter x y hx hy

/-- A loop that counts around a stretch with newer counters. -/
theorem enclose (h : nfa.CountsWithin (head + 2) last (counter + 1) chi)
    (hloop : nfa.CountedLoop head (last + 1) counter low high head last) (hchi : counter + 1 ≤ chi) :
    nfa.CountsWithin head (last + 1) counter chi := by
  -- A state is the head, the one that counts, the one that resets, or one of the body.
  have hplace : ∀ s, head ≤ s → s < last + 1 →
      (s = head ∨ s = head + 1 ∨ s = last) ∨ (head + 2 ≤ s ∧ s < last) := by omega
  have hown : ∀ s, (s = head ∨ s = head + 1 ∨ s = last) → (nfa.state s).counter? = some counter := by
    rintro s (rfl | rfl | rfl)
    · exact NfaState.counter?_of_bounds? hloop.bounds?
    · rw [hloop.increment]
      rfl
    · rw [hloop.reset]
      rfl
  have hbounds : ∀ s x c, head ≤ s → s < last + 1 → (nfa.state s).bounds? = some (c, x) →
      (c = counter ∧ x = (low, high)) ∨ ((head + 2 ≤ s ∧ s < last) ∧ counter < c) := by
    intro s x c hs hs' hx
    rcases hplace s hs hs' with (rfl | rfl | rfl) | hs
    · obtain ⟨rfl, rfl⟩ := Prod.mk.inj (Option.some.inj (hx.symm.trans hloop.bounds?))
      exact .inl ⟨rfl, rfl⟩
    · rw [hloop.increment] at hx
      cases hx
    · rw [hloop.reset] at hx
      cases hx
    · exact .inr ⟨hs, (h.loops s hs.1 hs.2 c (NfaState.counter?_of_bounds? hx)).1.1⟩
  refine ⟨fun s hs hs' c hc => ?_, fun s t hs hs' ht ht' c x y hx hy => ?_⟩
  · rcases hplace s hs hs' with hs | ⟨hs, hs'⟩
    · obtain rfl := Option.some.inj ((hown s hs).symm.trans hc)
      exact ⟨⟨Nat.le_refl _, hchi⟩, low, high, head, last, hloop, hs⟩
    · obtain ⟨hin, low, high, head', last', hinner, hplace⟩ := h.loops s hs hs' c hc
      exact ⟨by omega, low, high, head', last', hinner.mono (by omega) (by omega), hplace⟩
  · rcases hbounds s x c hs hs' hx with ⟨hc, rfl⟩ | ⟨⟨hs, hs'⟩, hc⟩ <;>
      rcases hbounds t y c ht ht' hy with ⟨hc', rfl⟩ | ⟨⟨ht, ht'⟩, hc'⟩
    · rfl
    · omega
    · omega
    · exact h.agree s t hs hs' ht ht' c x y hx hy

/-- A stretch that has been copied, with its copy. -/
theorem copy (h : nfa.CountsWithin lo mid clo chi) {rename : Nat → Nat} (hmid : lo ≤ mid)
    (hdead : (nfa.state mid).counter? = none)
    (hinside : ∀ s, lo ≤ s → s < mid → rename s = s - lo + (mid + 1))
    (hcopy : ∀ s, lo ≤ s → s < mid → nfa.state (rename s) = (nfa.state s).mapEpsilon rename) :
    nfa.CountsWithin lo (mid + 1 + (mid - lo)) clo chi := by
  -- Every state that touches a counter has a state of the original with the same bounds.
  have horiginal : ∀ s, lo ≤ s → s < mid + 1 + (mid - lo) → ∀ counter,
      (nfa.state s).counter? = some counter → ∃ t, lo ≤ t ∧ t < mid ∧ (s = t ∨ s = rename t) ∧
        (nfa.state t).counter? = some counter ∧ (nfa.state t).bounds? = (nfa.state s).bounds? := by
    intro s hs hs' counter hcounter
    by_cases hlt : s < mid
    · exact ⟨s, hs, hlt, .inl rfl, hcounter, rfl⟩
    have hne : s ≠ mid := by
      rintro rfl
      rw [hdead] at hcounter
      cases hcounter
    obtain ⟨t, ht, ht', rfl⟩ : ∃ t, lo ≤ t ∧ t < mid ∧ rename t = s :=
      exists_rename_eq hinside (Nat.le_refl lo) (Nat.le_refl mid) (by omega) (by omega)
    have hstate := hcopy t ht ht'
    refine ⟨t, ht, ht', .inr rfl, ?_, ?_⟩
    · rwa [hstate, NfaState.counter?_mapEpsilon] at hcounter
    · rw [hstate, NfaState.bounds?_mapEpsilon]
  refine ⟨fun s hs hs' counter hcounter => ?_, fun s t hs hs' ht ht' counter x y hx hy => ?_⟩
  · obtain ⟨t, ht, ht', hst, hcounter', -⟩ := horiginal s hs hs' counter hcounter
    obtain ⟨hin, low, high, head, last, hloop, hplace⟩ := h.loops t ht ht' counter hcounter'
    refine ⟨hin, low, high, ?_⟩
    rcases hst with rfl | rfl
    · exact ⟨head, last, hloop.mono (Nat.le_refl lo) (by omega), hplace⟩
    · have hlo := hloop.lo_le
      have hhi := hloop.lt_hi
      have hlt := hloop.lt
      have hhead := hinside head hlo (by omega)
      have hnext := hinside (head + 1) (by omega) (by omega)
      have hend := hinside last (by omega) hhi
      refine ⟨rename head, rename last,
        hloop.copy hinside hcopy (by omega) (by omega) (by omega), ?_⟩
      rcases hplace with rfl | rfl | rfl
      · exact .inl rfl
      · exact .inr (.inl (by omega))
      · exact .inr (.inr rfl)
  · obtain ⟨s', hs, hs', -, -, hsame⟩ := horiginal s hs hs' counter (NfaState.counter?_of_bounds? hx)
    obtain ⟨t', ht, ht', -, -, hsame'⟩ := horiginal t ht ht' counter (NfaState.counter?_of_bounds? hy)
    exact h.agree s' t' hs hs' ht ht' counter x y (hsame.trans hx) (hsame'.trans hy)

end CountsWithin

/-- A fragment that cannot match empty, with the head of a loop and a state that counts in front of
it and one that resets the counter behind it. -/
theorem CountedLoop.of_emitted {context : Nat} {d : Direction} {text : Text} {f : Behavior}
    {before after : Draft} {greedy : Bool} {entry exit : Nat}
    (h : Emitted context d text before after [entry] (head + 1) f false)
    (hsize : before.nodes.size = head + 2) (hext : nfa.Extends after before.nodes.size)
    (hhead : nfa.state head = .loop counter low high greedy entry exit)
    (hincrement : nfa.state (head + 1) = .increment counter (high.getD low) head)
    (hreset : nfa.state after.nodes.size = .reset counter head)
    (hpositive : ∀ most, high = some most → 0 < most)
    (hapart : ∀ s, head + 2 ≤ s → s < after.nodes.size → (nfa.state s).counter? ≠ some counter) :
    nfa.CountedLoop head (after.nodes.size + 1) counter low high head after.nodes.size := by
  -- The direction does not change where a state leads.
  let nfa' : Nfa := { nfa with direction := d }
  have hext' : nfa'.Extends after before.nodes.size :=
    ⟨hext.nodes, hext.lookBehinds, hext.lookAheads⟩
  have hstays : ∀ s, head + 2 ≤ s → s < after.nodes.size → ∀ t ∈ nfa.successors s,
      head < t ∧ t < after.nodes.size := by
    intro s hs hs' t ht
    have hclosed := (h.fragment nfa' rfl hext').closed s (by omega) hs' t ht
    omega
  have hnowalk : ∀ counts counts', ¬nfa'.EpsilonWalk (entry, counts) (head + 1, counts') :=
    h.not_epsilonWalk (by omega) rfl hext'
  have hentry := h.entries_in entry (by simp)
  have hne : entry ≠ head + 1 := by
    rintro rfl
    exact hnowalk [] [] .refl
  refine ⟨Nat.le_refl _, Nat.lt_succ_self _, ⟨greedy, entry, exit, hhead, by omega, by omega, ?_⟩,
    hincrement, hreset, hpositive, hapart, ?_, ?_⟩
  · exact fun counts counts' hwalk =>
      hnowalk counts counts' (Relation.ReflTransGen.mono (fun a b hstep => hstep.2) _ _ hwalk)
  · exact fun s hs hs' counts b hb => hstays s hs hs' b.1 (state_mem_successors hb)
  · intro s hs hs' set next hunit
    have hnext := hstays s hs hs' next (by simp [successors, hunit, NfaState.successors])
    exact ⟨head, after.nodes.size, Nat.le_refl _, Nat.lt_succ_self _,
      ⟨⟨low, high, by rw [hhead]; rfl⟩, hreset⟩, hnext⟩

end Nfa

/-! ### Constructions -/

/-- What has been added to a draft touches new counters only, those of complete loops. -/
structure Draft.Counts (before after : Draft) : Prop where
  grows : before.Grows after
  within : ∀ nfa : Nfa, nfa.Extends after before.nodes.size →
    nfa.CountsWithin before.nodes.size after.nodes.size before.counters after.counters

namespace Draft.Counts

variable {before middle after : Draft} {plan : BuildPlan} {origin : Nat}

/-- Where no state is added, there is nothing to count. -/
theorem of_size_eq (hgrows : before.Grows after) (hsize : after.nodes.size = before.nodes.size) :
    before.Counts after :=
  ⟨hgrows, fun _ _ => .of_none fun s hs hs' => by omega⟩

theorem trans (h : before.Counts middle) (h' : middle.Counts after) : before.Counts after where
  grows := h.grows.trans h'.grows
  within nfa hext :=
    (h.within nfa (hext.of_grows h'.grows)).trans (h'.within nfa (hext.mono h.grows.size_le))
      h.grows.size_le h'.grows.size_le h.grows.counters h'.grows.counters

/-- A state that touches no counter. -/
theorem add {state : NfaState} {e : Nat} (h : plan.add origin state before = .ok (e, after))
    (hstate : state.counter? = none) : before.Counts after := by
  obtain ⟨hgrows, -, hsize, hnode, -⟩ := Build.grows_of_add h
  refine ⟨hgrows, fun nfa hext => .of_none fun s hs hs' => ?_⟩
  obtain rfl : s = before.nodes.size := by omega
  rw [hext.state (Nat.le_refl _) hnode, hstate]

/-- A state that takes the place of one that was there before. -/
theorem put {state : NfaState} {u : Unit} (hadd : before.Counts middle)
    (hsize : middle.nodes.size = before.nodes.size + 1) {inner : Draft} (h : middle.Counts inner)
    (hput : BuildPlan.put before.nodes.size state inner = .ok (u, after))
    (hstate : state.counter? = none) : before.Counts after := by
  have hpatched := Build.put_eq_ok hput
  have hle := h.grows.size_le
  have hsize' : after.nodes.size = inner.nodes.size := by simp [hpatched]
  have hcounters : after.counters = inner.counters := by rw [hpatched]
  refine ⟨hpatched ▸ (hadd.grows.trans h.grows).put (Nat.le_refl _), fun nfa hext => ?_⟩
  have hhead : nfa.state before.nodes.size = state :=
    (hpatched ▸ hext).state_of_put (Nat.le_refl _) (by omega)
  have hrest : nfa.Extends inner middle.nodes.size := by
    rw [hpatched] at hext
    exact (hext.mono (by omega)).of_put (by omega)
  have hfirst : nfa.CountsWithin before.nodes.size middle.nodes.size before.counters
      middle.counters := by
    refine .of_none fun s hs hs' => ?_
    obtain rfl : s = before.nodes.size := by omega
    rw [hhead, hstate]
  rw [hsize', hcounters]
  exact hfirst.trans (h.within nfa hrest) (by omega) hle hadd.grows.counters h.grows.counters

/-- A stretch of a draft together with its copy. -/
theorem copy {rename : Nat → Nat} (h : before.Counts middle)
    (hcopied : middle.Copied after before.nodes.size origin rename) : before.Counts after where
  grows := h.grows.trans hcopied.grows
  within nfa hext := by
    have hin := hext.of_grows hcopied.grows
    have hdead : (nfa.state middle.nodes.size).counter? = none := by
      rw [hext.state h.grows.size_le hcopied.dead]
      rfl
    rw [hcopied.size, hcopied.counters]
    exact (h.within nfa hin).copy h.grows.size_le hdead hcopied.inside
      fun s hs hs' => hcopied.state hin hext hs hs'

/-- A loop that counts is complete if its body is a fragment that reads. -/
theorem counted {second : Draft} {q : Quantifier} {context : Nat} {text : Text} {f : Behavior}
    {next entry : Nat} (h : second.Counts middle)
    (hbody : Emitted context plan.direction text second middle [entry] (before.nodes.size + 1) f
      false)
    (hfront : before.CountedFront second q origin next)
    (hcounted : before.Counted middle after q origin entry next)
    (hpositive : ∀ most, q.max = some most → 0 < most) : before.Counts after := by
  have hsize := hfront.size
  have hle := h.grows.size_le
  have hmore := h.grows.counters
  refine ⟨hcounted.grows, fun nfa hext => ?_⟩
  have hin : nfa.Extends middle second.nodes.size := hsize ▸ hcounted.extends hext
  have hwithin := h.within nfa hin
  rw [hsize, hfront.counters] at hwithin
  have hloop : nfa.CountedLoop before.nodes.size (middle.nodes.size + 1) before.counters q.min q.max
      before.nodes.size middle.nodes.size := by
    refine Nfa.CountedLoop.of_emitted hbody hsize hin
      (hext.state (Nat.le_refl _) hcounted.head) (hext.state (Nat.le_succ _) hcounted.increment)
      (hext.state (by omega) hcounted.reset) hpositive fun s hs hs' hcounter => ?_
    have hnewer := (hwithin.loops s hs hs' _ hcounter).1
    omega
  rw [hcounted.size, hcounted.counters]
  exact hwithin.enclose hloop (hfront.counters ▸ hmore)

end Draft.Counts

/-- A construction that touches new counters only, those of complete loops. -/
def Build.Counts {α : Type} (m : Build α) : Prop :=
  ∀ before a after, m before = .ok (a, after) → before.Counts after

namespace Build.Counts

variable {α β : Type} {plan : BuildPlan} {origin next : Nat} {n : Bool}
  {clear : Option (Nat × Nat)} {body : Nat → Build Nat} {q : Quantifier}

theorem pure (a : α) : Build.Counts (Pure.pure a : Build α) := by
  intro before b after h
  obtain ⟨-, rfl⟩ := Build.pure_eq_ok.mp h
  exact .of_size_eq (.refl _) rfl

theorem refuse {c : Construct} : Build.Counts (BuildPlan.refuse c : Build α) := by
  intro before a after h
  cases h

theorem bind {m : Build α} {f : α → Build β} (hm : Build.Counts m)
    (hf : ∀ a, Build.Counts (f a)) : Build.Counts (m >>= f) := by
  intro before b after h
  obtain ⟨a, middle, hrun, hrest⟩ := Build.bind_eq_ok.mp h
  exact (hm _ _ _ hrun).trans (hf a _ _ _ hrest)

theorem add {state : NfaState} (hstate : state.counter? = none) :
    Build.Counts (plan.add origin state) := fun _ _ _ h => .add h hstate

theorem addLookBehind (sets : List CharSet) : Build.Counts (BuildPlan.addLookBehind sets) := by
  intro before i after h
  obtain ⟨-, hprefix, -⟩ := before.behinds.add_spec sets
  cases h
  exact .of_size_eq
    ⟨Nat.le_refl _, fun _ _ => rfl, hprefix, List.prefix_refl _, Nat.le_refl _⟩ rfl

theorem addLookAhead (branches : List (List CharSet)) :
    Build.Counts (BuildPlan.addLookAhead branches) := by
  intro before i after h
  obtain ⟨-, hprefix, -⟩ := before.aheads.add_spec branches
  cases h
  exact .of_size_eq
    ⟨Nat.le_refl _, fun _ _ => rfl, List.prefix_refl _, hprefix, Nat.le_refl _⟩ rfl

theorem anchor (kind : Anchor) : Build.Counts (plan.anchor origin next kind) := by
  cases kind with
  | caret =>
    simp only [BuildPlan.anchor]
    split
    · split
      · exact refuse
      · exact bind (addLookBehind _) fun i => add rfl
    · exact add rfl
  | dollar =>
    simp only [BuildPlan.anchor]
    split
    · exact refuse
    · exact add rfl
  | wordBoundary | notWordBoundary => exact refuse

theorem lookBehind (negated : Bool) (body : Choice) :
    Build.Counts (plan.lookBehind origin next negated body) := by
  unfold BuildPlan.lookBehind
  split
  · exact refuse
  · split
    · exact refuse
    · exact bind (addLookBehind _) fun i => add rfl

theorem lookAhead (negated : Bool) (body : Choice) :
    Build.Counts (plan.lookAhead origin next negated body) := by
  unfold BuildPlan.lookAhead
  split
  · exact refuse
  · split
    · exact refuse
    · split
      · exact refuse
      · split
        · exact refuse
        · exact bind (addLookAhead _) fun i => add rfl

theorem join (entries : List Nat) : Build.Counts (plan.join origin entries) := by
  by_cases hone : ∃ entry, entries = [entry]
  · obtain ⟨entry, rfl⟩ := hone
    exact pure entry
  · rw [plan.join_of_ne origin fun entry h => hone ⟨entry, h⟩]
    exact add rfl

theorem groupPass {capture : Option Nat} {branches : Nat → Build (List Nat)}
    (hf : ∀ next, Build.Counts (branches next)) :
    Build.Counts (plan.groupPass origin capture branches next) := by
  by_cases hnone : plan.captures = false ∨ capture = none
  · rw [BuildPlan.groupPass_of_none hnone]
    exact bind (hf next) join
  · obtain ⟨hcaptures, hsome⟩ := not_or.mp hnone
    obtain ⟨g, rfl⟩ := Option.ne_none_iff_exists'.mp hsome
    rw [BuildPlan.groupPass_of_some (by simpa using hcaptures)]
    exact bind (add rfl) fun exit => bind (bind (hf exit) join) fun entry => add rfl

theorem iteration (hf : ∀ next, Build.Counts (body next)) :
    Build.Counts (plan.iteration origin clear body next) := by
  unfold BuildPlan.iteration
  refine bind (hf next) fun entry => ?_
  split
  · exact add rfl
  · exact pure entry

theorem chain {compile : Nat → Build Nat} (hf : ∀ next, Build.Counts (compile next))
    (count next : Nat) : Build.Counts (BuildPlan.chain compile count next) := by
  induction count generalizing next with
  | zero => exact pure next
  | succ count ih => exact bind (hf next) ih

/-- What leads back to a state is built before the state is known. -/
theorem knot {inner : Nat → Build Nat} (state : Nat → Nat → NfaState) {rest : Nat → Build α}
    (hinner : ∀ head, Build.Counts (inner head)) (hstate : ∀ a b, (state a b).counter? = none)
    (hrest : ∀ head, Build.Counts (rest head)) :
    Build.Counts (do
      let head ← plan.add origin (.split [])
      let entry ← inner head
      BuildPlan.put head (state head entry)
      rest head) := by
  intro before a after h
  obtain ⟨head, first, hadd, h⟩ := Build.bind_eq_ok.mp h
  obtain ⟨entry, second, hentry, h⟩ := Build.bind_eq_ok.mp h
  obtain ⟨u, patched, hput, h⟩ := Build.bind_eq_ok.mp h
  obtain ⟨-, rfl, hsize, -⟩ := Build.grows_of_add hadd
  have hknot := (Draft.Counts.add hadd rfl).put hsize (hinner _ _ _ _ hentry) hput (hstate _ _)
  exact hknot.trans (hrest _ _ _ _ h)

/-- An iteration that has to move, with a copy of its states if it can match empty. -/
theorem movingIteration (hf : ∀ next, Build.Counts (plan.iteration origin clear body next)) :
    Build.Counts (plan.movingIteration origin clear n body next) := by
  intro before e after hrun
  rw [BuildPlan.movingIteration, Build.get_bind] at hrun
  obtain ⟨entry, middle, hbody, hrest⟩ := Build.bind_eq_ok.mp hrun
  have hf' := hf next _ _ _ hbody
  cases n with
  | false =>
    obtain ⟨-, rfl⟩ := Build.pure_eq_ok.mp hrest
    exact hf'
  | true =>
    simp only [Bool.not_true, Bool.false_eq_true, if_false, Build.get_bind] at hrest
    obtain ⟨dead, split, hadd, hrest⟩ := Build.bind_eq_ok.mp hrest
    obtain ⟨rfl, rfl⟩ := Build.add_eq_ok hadd
    rw [Build.get_bind] at hrest
    obtain ⟨_, copied, hcopies, hpure⟩ := Build.bind_eq_ok.mp hrest
    obtain ⟨-, rfl⟩ := Build.pure_eq_ok.mp hpure
    simp only [Array.size_push] at hcopies
    exact hf'.copy (Build.copied hf'.grows.size_le hcopies)

theorem unrolledLoop (hf : ∀ next, Build.Counts (plan.iteration origin clear body next)) :
    Build.Counts (plan.unrolledLoop origin q clear n body next) := by
  have hmoving : ∀ next, Build.Counts (plan.movingIteration origin clear n body next) :=
    fun next => movingIteration hf
  have hchain := chain hf q.min
  unfold BuildPlan.unrolledLoop
  dsimp only
  split
  · simp only [pure_bind]
    exact knot (fun _ entry => .split (BuildPlan.ordered q.greedy entry next)) hmoving
      (fun _ _ => rfl) hchain
  · exact bind (chain (fun t => bind (hmoving t) fun entry => add rfl) _ next) hchain

/-- A loop that counts its iterations. -/
theorem countedLoop {context : Nat} {text : Text} {f : Behavior}
    (hf : ∀ next, Build.Counts (plan.iteration origin clear body next))
    (hbody : ∀ next, Emits context plan.direction text
      (plan.iteration origin clear body next) next f n)
    (hpositive : ∀ most, q.max = some most → 0 < most) :
    Build.Counts (plan.countedLoop origin q clear n body next) := by
  intro before e after hrun
  rw [BuildPlan.countedLoop] at hrun
  cases n with
  | true => cases hrun
  | false =>
    simp only [Bool.false_eq_true, if_false] at hrun
    obtain ⟨counter, numbered, hcounter, hrun⟩ := Build.bind_eq_ok.mp hrun
    obtain ⟨head, first, hadd, hrun⟩ := Build.bind_eq_ok.mp hrun
    obtain ⟨incr, second, hadd', hrun⟩ := Build.bind_eq_ok.mp hrun
    obtain ⟨entry, middle, hiteration, hrun⟩ := Build.bind_eq_ok.mp hrun
    obtain ⟨u, patched, hput, hreset⟩ := Build.bind_eq_ok.mp hrun
    obtain ⟨rfl, rfl, rfl, hfront⟩ := Build.countedFront hcounter hadd hadd'
    have hsize := hfront.size
    have hcounts := hf _ _ _ _ hiteration
    obtain ⟨rfl, hcounted⟩ := hfront.counted hcounts.grows hput hreset
    exact hcounts.counted (hbody _ _ _ _ hiteration (by omega)) hfront hcounted hpositive

/-- A loop only counts if it may iterate. -/
theorem repetition {context : Nat} {text : Text} {f : Behavior}
    (hf : ∀ next, Build.Counts
      (plan.iteration origin (if plan.captures then clear else none) body next))
    (hbody : ∀ next, Emits context plan.direction text
      (plan.iteration origin (if plan.captures then clear else none) body next) next f n)
    (hq : q.InOrder) : Build.Counts (plan.repetition origin q clear n body next) := by
  unfold BuildPlan.repetition
  dsimp only
  split
  · rename_i hlong
    refine countedLoop hf hbody fun most hmost => ?_
    have hle := hq most hmost
    simp only [hmost, Option.any_some, Bool.or_eq_true, decide_eq_true_eq] at hlong
    omega
  · exact unrolledLoop hf

end Build.Counts

/-! ### Terms -/

variable {plan : BuildPlan} {flags : Flags} {context : Nat}

mutual

theorem Term.compile_counts (hmulti : plan.multiline = flags.multiline) (t : Term)
    (hwf : t.WellFormed flags context) (href : t.hasBackReference = false) (node next : Nat) :
    Build.Counts (t.compile plan node next) := by
  match t with
  | .unit set => exact .add rfl
  | .anchor kind => exact .anchor kind
  | .backReference _ => exact .refuse
  | .look true negated body => exact .lookBehind negated body
  | .look false negated body => exact .lookAhead negated body
  | .group capture repeats body =>
    have hpass : ∀ next, Build.Counts (plan.pass node capture body next) := fun next =>
      .groupPass fun exit => body.compile_counts hmulti hwf.1 href (node + 1) exit
    cases repeats with
    | none => exact hpass next
    | some q =>
      obtain ⟨c, f, hf, -⟩ := plan.exists_emits_iteration hmulti hwf href #[]
      exact .repetition (fun next => .iteration hpass) (hf node) (hwf.2.2 q rfl)

theorem Branch.compile_counts (hmulti : plan.multiline = flags.multiline) (b : Branch)
    (hwf : b.WellFormed flags context) (href : b.hasBackReference = false) (node next : Nat) :
    Build.Counts (b.compile plan node next) := by
  match b with
  | .nil => exact .pure next
  | .cons t rest =>
    obtain ⟨htref, hrref⟩ := Bool.or_eq_false_iff.mp href
    have ht := t.compile_counts hmulti hwf.1 htref node
    have hrest := rest.compile_counts hmulti hwf.2 hrref (node + t.size)
    simp only [Branch.compile]
    cases plan.direction with
    | forward => exact .bind (hrest next) ht
    | backward => exact .bind (ht next) hrest

theorem Choice.compile_counts (hmulti : plan.multiline = flags.multiline) (c : Choice)
    (hwf : c.WellFormed flags context) (href : c.hasBackReference = false) (node next : Nat) :
    Build.Counts (c.compile plan node next) := by
  match c with
  | .one b =>
    exact .bind (b.compile_counts hmulti hwf href (node + 1) next) fun entry => .pure [entry]
  | .more b rest =>
    obtain ⟨hbref, hrref⟩ := Bool.or_eq_false_iff.mp href
    exact .bind (b.compile_counts hmulti hwf.1 hbref (node + 1) next) fun entry =>
      .bind (rest.compile_counts hmulti hwf.2 hrref (node + b.size + 1) next) fun others =>
        .pure (entry :: others)

end

/-! ### The whole automaton -/

namespace BuildPlan

theorem addEntries_counts (plan : BuildPlan) (layout : IdLayout) (count : Nat) :
    ∀ anchored unanchored lastAnchored lastUnanchored skipped, Build.Counts
      (plan.addEntries layout anchored unanchored lastAnchored lastUnanchored skipped count) := by
  induction count with
  | zero => exact fun _ _ _ _ _ => .pure _
  | succ count ih =>
    exact fun _ _ _ _ _ => .bind (.add rfl) fun a => .bind (.add rfl) fun u => ih _ _ _ _ _

theorem addSearchLoop_counts (plan : BuildPlan) (layout : IdLayout) (start : Nat) :
    Build.Counts (plan.addSearchLoop layout start) :=
  .knot (fun _ skip => .split [start, skip]) (fun _ => .add rfl) (fun _ _ => rfl) .pure

theorem run_counts {p : Pattern} (hmulti : plan.multiline = p.flags.multiline)
    (hwf : p.root.WellFormed p.flags context) (href : p.root.hasBackReference = false) :
    Build.Counts (plan.run p) := by
  have hend (entries : List Nat × List Nat) (start : Nat) : Build.Counts (do
      let draft ← get
      return (⟨draft.nodes, start, entries.1, entries.2, draft.lookBehinds, draft.lookAheads,
        draft.counters, p.groupCount, plan.direction⟩ : Nfa)) := by
    intro before nfa after h
    rw [Build.get_bind] at h
    exact Build.Counts.pure _ _ _ _ h
  refine .bind (.add rfl) fun accept =>
    .bind (p.root.compile_counts hmulti hwf href _ accept) fun start => ?_
  dsimp only
  split
  · exact .bind (.pure _) fun entries => hend entries start
  · split
    · exact .bind (.pure start) fun search =>
        .bind (plan.addEntries_counts _ _ _ _ _ _ _) fun entries => hend entries start
    · exact .bind (plan.addSearchLoop_counts _ _) fun search =>
        .bind (plan.addEntries_counts _ _ _ _ _ _ _) fun entries => hend entries start

end BuildPlan

/-- Every state of an automaton that touches a counter belongs to a complete loop, and loops with one
counter have the same bounds. -/
theorem Nfa.countsWithin_of_build {q : NumberedPattern}
    (hwf : q.root.WellFormed q.flags context) {config : Config} {direction : Direction} {nfa : Nfa}
    (h : Nfa.build q config direction = .ok nfa) :
    nfa.CountsWithin 0 nfa.size 0 nfa.counters := by
  obtain ⟨href, after, hrun⟩ := Nfa.run_of_build h
  let plan : BuildPlan := ⟨config, direction, q.flags.multiline⟩
  have hcounts := (plan.run_counts rfl hwf href : Build.Counts (plan.run q.toPattern)) _ _ _ hrun
  let scope : Scope := ⟨fun _ => True, 0, 0⟩
  have hids : ∀ i, scope.ids i := fun _ => trivial
  obtain ⟨_, _, _, _, _, -, -, hnfa, -⟩ :=
    BuildPlan.run_lays (hids _) (fun _ _ _ => ⟨hids _, hids _⟩) hrun
  have hext : nfa.Extends after 0 := by
    rw [hnfa]
    exact ⟨fun _ _ _ => rfl, List.prefix_refl _, List.prefix_refl _⟩
  have hsize : nfa.size = after.nodes.size := congrArg Nfa.size hnfa
  have hcounters : nfa.counters = after.counters := congrArg Nfa.counters hnfa
  rw [hsize, hcounters]
  exact hcounts.within nfa hext

end UnitRegex
