import UnitRegex.Proofs.Automaton.Unfolding

/-!
Stretches of states that stand for a part of a pattern. A fragment is entered at its entries and
left towards one state; what it leads to is given by a behavior. A fragment that cannot match empty
reads a unit before it is left.
-/

namespace UnitRegex

/-- Lists of counters that agree outside of a range. -/
structure SameCounts (clo chi : Nat) (a b : List Nat) : Prop where
  length : b.length = a.length
  others : ∀ c, c < clo ∨ chi ≤ c → b[c]? = a[c]?

namespace SameCounts

variable {clo chi clo' chi' : Nat} {a b c : List Nat}

theorem refl (clo chi : Nat) (a : List Nat) : SameCounts clo chi a a := ⟨rfl, fun _ _ => rfl⟩

theorem trans (h : SameCounts clo chi a b) (h' : SameCounts clo chi b c) :
    SameCounts clo chi a c :=
  ⟨h'.length.trans h.length, fun i hi => (h'.others i hi).trans (h.others i hi)⟩

theorem mono (h : SameCounts clo' chi' a b) (hlo : clo ≤ clo') (hhi : chi' ≤ chi) :
    SameCounts clo chi a b := ⟨h.length, fun i hi => h.others i (by omega)⟩

theorem set {counter value : Nat} (hlo : clo ≤ counter) (hhi : counter < chi) :
    SameCounts clo chi a (a.set counter value) :=
  ⟨List.length_set, fun i hi => List.getElem?_set_ne (by omega)⟩

end SameCounts

/-- A configuration with which a fragment is left that was entered with `x`. -/
structure Configuration.Leaves (text : Text) (clo chi next : Nat) (x y : Configuration) :
    Prop where
  state : y.state = next
  cursor : y.cursor ≤ text.size
  counts : SameCounts clo chi x.thread.counts y.thread.counts

/-- The states from `lo` up to `hi` with the counters from `clo` up to `chi` behave like `f`. -/
structure Fragment (nfa : Nfa) (text : Text) (f : Behavior) (nullable : Bool)
    (clo chi lo hi : Nat) (entries : List Nat) (next : Nat) : Prop where
  entries_in : ∀ e ∈ entries, e = next ∨ (lo ≤ e ∧ e < hi)
  closed : ∀ s, lo ≤ s → s < hi → ∀ t ∈ nfa.successors s, t = next ∨ (lo ≤ t ∧ t < hi)
  settles : ∀ s, lo ≤ s → s < hi → ∀ counts, nfa.Settles (fun b => b.1 = next) (s, counts)
  /-- Without a unit the end of a fragment that cannot match empty is out of reach. -/
  moves : nullable = false → ∀ e ∈ entries, ∀ counts, nfa.Settles (fun _ => False) (e, counts)
  yields : ∀ x : Configuration, x.cursor ≤ text.size → chi ≤ x.thread.counts.length →
    nfa.Yields text lo hi (x.Leaves text clo chi next) (entries.map x.goTo) (f x.matchState)

namespace Configuration

variable {text : Text} {clo chi next : Nat} {x y z : Configuration}

@[simp] theorem goTo_state (x : Configuration) (s : Nat) : (x.goTo s).state = s := rfl

@[simp] theorem goTo_cursor (x : Configuration) (s : Nat) : (x.goTo s).cursor = x.cursor := rfl

@[simp] theorem goTo_counts (x : Configuration) (s : Nat) :
    (x.goTo s).thread.counts = x.thread.counts := rfl

@[simp] theorem goTo_matchState (x : Configuration) (s : Nat) :
    (x.goTo s).matchState = x.matchState := rfl

@[simp] theorem goTo_goTo (x : Configuration) (s t : Nat) : (x.goTo s).goTo t = x.goTo t := rfl

theorem goTo_of_state {s : Nat} (h : x.state = s) : x.goTo s = x := by
  subst h
  rfl

theorem Leaves.mono {clo' chi' : Nat} (h : x.Leaves text clo' chi' next y) (hlo : clo ≤ clo')
    (hhi : chi' ≤ chi) : x.Leaves text clo chi next y :=
  ⟨h.state, h.cursor, h.counts.mono hlo hhi⟩

theorem Leaves.after {s : Nat} (h : x.Leaves text clo chi s y)
    (h' : y.Leaves text clo chi next z) : x.Leaves text clo chi next z :=
  ⟨h'.state, h'.cursor, h.counts.trans h'.counts⟩

end Configuration

namespace Nfa

variable {nfa : Nfa}

theorem Settles.imp {P Q : Nat × List Nat → Prop} {a : Nat × List Nat} (h : nfa.Settles P a)
    (himp : ∀ b, P b → Q b) : nfa.Settles Q a :=
  h.bind fun b hb => .stop (himp b hb)

/-- What settles for good also settles before a given place. -/
theorem Settles.of_false {Q : Nat × List Nat → Prop} {a : Nat × List Nat}
    (h : nfa.Settles (fun _ => False) a) : nfa.Settles Q a :=
  h.imp fun _ hb => hb.elim

theorem steps_of_split {text : Text} {stop s : Nat} {targets : List Nat} (x : Configuration)
    (h : nfa.state s = .split targets) :
    nfa.steps text stop (x.goTo s) = targets.map x.goTo := by
  have hstate : (x.goTo s).thread.state = s := rfl
  rw [steps_of_not_unit (by simp [h])]
  simp only [Thread.successors, hstate, h, List.map_map]
  rfl

theorem mem_countChoices {low : Nat} {high : Option Nat} {greedy : Bool} {body exit count : Nat}
    {choice : Nat × Nat} : choice ∈ countChoices low high greedy body exit count ↔
      (high.all (count < ·) ∧ choice = (body, count)) ∨ (low ≤ count ∧ choice = (exit, 0)) := by
  unfold countChoices
  by_cases hagain : high.all (count < ·) <;> by_cases hleave : low ≤ count <;> cases greedy <;>
    simp [hagain, hleave, or_comm]

theorem state_mem_successors {a b : Nat × List Nat} (h : b ∈ nfa.epsilon a) :
    b.1 ∈ nfa.successors a.1 := by
  unfold epsilon at h
  unfold successors
  cases hs : nfa.state a.1 <;> simp only [hs, NfaState.successors] at h ⊢
  case unit => simp at h
  case accept => simp at h
  case split targets =>
    obtain ⟨s, hs, rfl⟩ := List.mem_map.mp h
    exact hs
  case loop counter low high greedy body exit =>
    obtain ⟨choice, hc, rfl⟩ := List.mem_map.mp h
    rcases mem_countChoices.mp hc with ⟨-, rfl⟩ | ⟨-, rfl⟩ <;> simp
  all_goals
    obtain rfl := List.mem_singleton.mp h
    simp

end Nfa

namespace Fragment

variable {nfa : Nfa} {text : Text} {f g : Behavior} {n m : Bool} {clo cmid chi lo mid hi : Nat}
  {entries others : List Nat} {s next : Nat}

/-- A fragment with states and counters of a larger stretch, if nothing else enters it. -/
theorem skip (clo lo next : Nat) :
    Fragment nfa text (fun x => [x]) true clo clo lo lo [next] next where
  entries_in := by simp
  closed := by omega
  settles := by omega
  moves := by simp
  yields x hx _ :=
    (nfa.unfolding text lo lo).single (s := x.goTo next) ⟨rfl, hx, .refl _ _ _⟩

/-- A state that hands its counters on to the only state behind it. -/
theorem single (haccept : nfa.state s ≠ .accept) (hsuccessors : nfa.successors s = [next])
    (hepsilon : n = false → ∀ counts, nfa.epsilon (s, counts) = [])
    (hsteps : ∀ x : Configuration, x.state = s → x.cursor ≤ text.size →
      (nfa.steps text text.size x).map Configuration.matchState = f x.matchState ∧
      ∀ y ∈ nfa.steps text text.size x, y.state = next ∧ y.cursor ≤ text.size ∧
        y.thread.counts = x.thread.counts) :
    Fragment nfa text f n clo clo s (s + 1) [s] next where
  entries_in := by simp
  closed t hlo hhi u hu := by
    obtain rfl : t = s := by omega
    rw [hsuccessors] at hu
    exact .inl (List.mem_singleton.mp hu)
  settles t hlo hhi counts := by
    obtain rfl : t = s := by omega
    refine .go fun b hb => .stop ?_
    have hmem := Nfa.state_mem_successors hb
    rw [hsuccessors] at hmem
    exact List.mem_singleton.mp hmem
  moves hn e he counts := by
    obtain rfl := List.mem_singleton.mp he
    refine .go fun b hb => ?_
    rw [hepsilon hn counts] at hb
    simp at hb
  yields x hx _ := by
    obtain ⟨hmap, hall⟩ := hsteps (x.goTo s) rfl hx
    refine ⟨nfa.steps text text.size (x.goTo s), hmap, ?_,
      .of_steps (Nat.le_refl s) (Nat.lt_succ_self s) haccept⟩
    intro y hy
    obtain ⟨hstate, hcursor, hcounts⟩ := hall y hy
    refine ⟨hstate, hcursor, ?_⟩
    rw [hcounts]
    exact .refl _ _ _

theorem of_unit {set : CharSet} (h : nfa.state s = .unit set next) :
    Fragment nfa text (.unit text nfa.direction set) false clo clo s (s + 1) [s] next := by
  refine single (by simp [h]) (by simp [Nfa.successors, h, NfaState.successors])
    (fun _ counts => by simp [Nfa.epsilon, h]) ?_
  rintro x rfl hx
  rw [Nfa.steps_of_unit h]
  simp only [Behavior.unit, Configuration.matchState]
  cases hread : text.read x.cursor nfa.direction with
  | none => simp
  | some after =>
    obtain ⟨c, cursor⟩ := after
    have hstop : nfa.direction = .forward → x.cursor < text.size := by
      intro hd
      rw [hd] at hread
      have := Text.left_lt_of_read hread
      simp only [Text.left] at this
      omega
    have hle := Text.le_size_of_read hread
    by_cases hset : set.contains c
    · simp only [if_pos (And.intro hset hstop), if_pos hset]
      exact ⟨rfl, by simp [hle, Configuration.state, Configuration.goTo]⟩
    · simp [hset]

theorem of_guard {guard : Guard} {p : Nat → Bool} (h : nfa.state s = .assert guard next)
    (hp : ∀ cursor ≤ text.size, nfa.holds text cursor guard = p cursor) :
    Fragment nfa text (.check p) true clo clo s (s + 1) [s] next := by
  refine single (by simp [h]) (by simp [Nfa.successors, h, NfaState.successors]) (by simp) ?_
  rintro x rfl hx
  rw [Nfa.steps_of_not_unit (by simp [h])]
  simp only [Thread.successors, Configuration.state] at h ⊢
  simp only [h, hp x.cursor hx, Behavior.check, Configuration.matchState]
  by_cases hholds : p x.cursor <;> simp [hholds, Configuration.matchState, hx]

theorem of_save {slot : Nat} (h : nfa.state s = .save slot next) :
    Fragment nfa text (fun x => [{ x with slots := x.slots.setIfInBounds slot x.cursor }]) true
      clo clo s (s + 1) [s] next := by
  refine single (by simp [h]) (by simp [Nfa.successors, h, NfaState.successors]) (by simp) ?_
  rintro x rfl hx
  rw [Nfa.steps_of_not_unit (by simp [h])]
  simp only [Thread.successors, Configuration.state] at h ⊢
  simp [h, Configuration.matchState, hx]

theorem of_unset {low high : Nat} (h : nfa.state s = .unset low high next) :
    Fragment nfa text (fun x => [x.clear (some (low, high))]) true clo clo s (s + 1) [s] next := by
  refine single (by simp [h]) (by simp [Nfa.successors, h, NfaState.successors]) (by simp) ?_
  rintro x rfl hx
  rw [Nfa.steps_of_not_unit (by simp [h])]
  simp only [Thread.successors, Configuration.state] at h ⊢
  simp [h, Configuration.matchState, MatchState.clear, hx]

/-- A fragment in front of another one, whose states come first. -/
theorem seq (hf : Fragment nfa text f n cmid chi mid hi entries s)
    (hg : Fragment nfa text g m clo cmid lo mid [s] next) (hlo : lo ≤ mid) (hhi : mid ≤ hi)
    (hclo : clo ≤ cmid) (hchi : cmid ≤ chi) :
    Fragment nfa text (f.andThen g) (n && m) clo chi lo hi entries next where
  entries_in e he := by
    have hs := hg.entries_in s (by simp)
    rcases hf.entries_in e he with rfl | h
    · omega
    · omega
  closed t htlo hthi u hu := by
    have hs := hg.entries_in s (by simp)
    by_cases hmid : t < mid
    · have := hg.closed t htlo hmid u hu
      omega
    · have := hf.closed t (by omega) hthi u hu
      omega
  settles t htlo hthi counts := by
    by_cases hmid : t < mid
    · exact hg.settles t htlo hmid counts
    · refine (hf.settles t (by omega) hthi counts).bind ?_
      rintro ⟨u, counts'⟩ rfl
      rcases hg.entries_in u (by simp) with hu | hu
      · exact .stop hu
      · exact hg.settles u hu.1 hu.2 counts'
  moves hnm e he counts := by
    cases n with
    | false => exact hf.moves rfl e he counts
    | true =>
      have hmoves := hg.moves (by simpa using hnm) s (by simp)
      rcases hf.entries_in e he with rfl | h
      · exact hmoves counts
      · refine (hf.settles e h.1 h.2 counts).bind ?_
        rintro ⟨u, counts'⟩ rfl
        exact hmoves counts'
  yields x hx hcounts := by
    have hfirst := hf.yields x hx hcounts
    have hwide := (hfirst.imp fun y hy => hy.mono hclo (Nat.le_refl chi)).mono fun a b h =>
      h.mono hlo (Nat.le_refl hi)
    refine (nfa.unfolding text lo hi).bind hwide fun y hy => ?_
    have hsecond := hg.yields y hy.cursor (by rw [hy.counts.length]; omega)
    rw [List.map_singleton, Configuration.goTo_of_state hy.state] at hsecond
    exact (hsecond.imp fun z hz => hy.after (hz.mono (Nat.le_refl clo) hchi)).mono fun a b h =>
      h.mono (Nat.le_refl lo) hhi

/-- Fragments side by side, the preferred one first. -/
theorem alt (hf : Fragment nfa text f n clo cmid lo mid entries next)
    (hg : Fragment nfa text g m cmid chi mid hi others next) (hlo : lo ≤ mid) (hhi : mid ≤ hi)
    (hclo : clo ≤ cmid) (hchi : cmid ≤ chi) :
    Fragment nfa text (f.orElse g) (n || m) clo chi lo hi (entries ++ others) next where
  entries_in e he := by
    rcases List.mem_append.mp he with he | he
    · have := hf.entries_in e he
      omega
    · have := hg.entries_in e he
      omega
  closed t htlo hthi u hu := by
    by_cases hmid : t < mid
    · have := hf.closed t htlo hmid u hu
      omega
    · have := hg.closed t (by omega) hthi u hu
      omega
  settles t htlo hthi counts := by
    by_cases hmid : t < mid
    · exact hf.settles t htlo hmid counts
    · exact hg.settles t (by omega) hthi counts
  moves hnm e he counts := by
    obtain ⟨hn, hm⟩ := Bool.or_eq_false_iff.mp hnm
    rcases List.mem_append.mp he with he | he
    · exact hf.moves hn e he counts
    · exact hg.moves hm e he counts
  yields x hx hcounts := by
    rw [List.map_append]
    refine (nfa.unfolding text lo hi).join ?_ ?_
    · exact ((hf.yields x hx (by omega)).imp fun y hy => hy.mono (Nat.le_refl clo) hchi).mono
        fun a b h => h.mono (Nat.le_refl lo) hhi
    · exact ((hg.yields x hx hcounts).imp fun y hy => hy.mono hclo (Nat.le_refl chi)).mono
        fun a b h => h.mono hlo (Nat.le_refl hi)

/-- Several entries become one by a split behind them. -/
theorem split (hf : Fragment nfa text f n clo chi lo hi entries next) (hlo : lo ≤ hi)
    (h : nfa.state hi = .split entries) : Fragment nfa text f n clo chi lo (hi + 1) [hi] next where
  entries_in := by simp; omega
  closed t htlo hthi u hu := by
    by_cases hlast : t = hi
    · subst hlast
      simp only [Nfa.successors, h, NfaState.successors] at hu
      have := hf.entries_in u hu
      omega
    · have := hf.closed t htlo (by omega) u hu
      omega
  settles t htlo hthi counts := by
    by_cases hlast : t = hi
    · subst hlast
      refine .go fun b hb => ?_
      simp only [Nfa.epsilon, h] at hb
      obtain ⟨u, hu, rfl⟩ := List.mem_map.mp hb
      rcases hf.entries_in u hu with hnext | hin
      · exact .stop hnext
      · exact hf.settles u hin.1 hin.2 counts
    · exact hf.settles t htlo (by omega) counts
  moves hn e he counts := by
    obtain rfl := List.mem_singleton.mp he
    refine .go fun b hb => ?_
    simp only [Nfa.epsilon, h] at hb
    obtain ⟨u, hu, rfl⟩ := List.mem_map.mp hb
    exact hf.moves hn u hu counts
  yields x hx hcounts := by
    refine Nfa.yields_of_steps hlo (Nat.lt_succ_self hi) (by simp [h]) ?_
    rw [Nfa.steps_of_split x h]
    exact (hf.yields x hx hcounts).mono fun a b h => h.mono (Nat.le_refl lo) (Nat.le_succ hi)

end Fragment

end UnitRegex
