import UnitRegex.Backtrack.Undo

/-!
What a failed attempt leaves behind. Every change of a slot has a job on the stack that takes it
back, so a stack that is worked off without success leaves the captures as its own jobs restore
them, whatever the instructions are.
-/

namespace UnitRegex

namespace Machine

variable {p : Machine} {text : Text}

/-! ### The equations of a run -/

@[simp] theorem run_nil (m : Memory) : p.run text [] m = some (none, m) := by
  rw [run]

@[simp] theorem run_restoreSlot (slot : Nat) (value : Int) (rest : List Job) (m : Memory) :
    p.run text (.restoreSlot slot value :: rest) m =
      p.run text rest (m.restoreSlot slot value) := by
  rw [run]

@[simp] theorem run_restoreRegister (r value : Nat) (rest : List Job) (m : Memory) :
    p.run text (.restoreRegister r value :: rest) m =
      p.run text rest (m.restoreRegister r value) := by
  rw [run]

section

variable {pc cursor : Nat} {op : Op} {m : Memory}

theorem run_of_accept (hop : p.ops[pc]? = some op)
    (h : p.execute text m pc cursor op = some .accept) (rest : List Job) :
    p.run text (.resume pc cursor :: rest) m = some (some cursor, m) := by
  rw [run]
  simp [hop, h]

theorem run_of_fail (hop : p.ops[pc]? = some op)
    (h : p.execute text m pc cursor op = some .fail) (rest : List Job) :
    p.run text (.resume pc cursor :: rest) m = p.run text rest m := by
  rw [run]
  simp [hop, h]

theorem run_of_go {pc' cursor' : Nat} {pushed : List Job} {m' : Memory}
    (hop : p.ops[pc]? = some op)
    (h : p.execute text m pc cursor op = some (.go pc' cursor' pushed m')) (rest : List Job) :
    p.run text (.resume pc cursor :: rest) m =
      p.run text (.resume pc' cursor' :: (pushed ++ rest)) m' := by
  rw [run]
  simp [hop, h]

/-- How a run goes on behind a look-around. -/
def runBehind (p : Machine) (text : Text) (negated : Bool) (next cursor : Nat) (rest : List Job)
    (m : Memory) (found : Option Nat) (after : Memory) : Option (Option Nat × Memory) :=
  match found, negated with
  | some _, true => p.run text rest { after with slots := m.slots }
  | some _, false =>
    p.run text (.resume next cursor :: (m.slots.restore after.slots ++ rest)) after
  | none, true => p.run text (.resume next cursor :: rest) after
  | none, false => p.run text rest after

theorem run_of_look {negated : Bool} {next : Nat} {found : Option Nat} {after : Memory}
    (hop : p.ops[pc]? = some (.look negated next))
    (hbody : p.run text [.resume (pc + 1) cursor] m = some (found, after)) (rest : List Job) :
    p.run text (.resume pc cursor :: rest) m =
      p.runBehind text negated next cursor rest m found after := by
  rw [run]
  simp only [hop, execute, hbody, Option.bind_eq_bind, Option.bind_some]
  rfl

end

/-! ### Runs as derivations -/

/-- A stack of jobs is worked off from some memory with some result. -/
inductive Runs (p : Machine) (text : Text) : List Job → Memory → Option Nat × Memory → Prop
  | nil (m : Memory) : Runs p text [] m (none, m)
  | restoreSlot {slot : Nat} {value : Int} {rest : List Job} {m : Memory}
    {r : Option Nat × Memory} (h : Runs p text rest (m.restoreSlot slot value) r) :
    Runs p text (.restoreSlot slot value :: rest) m r
  | restoreRegister {register value : Nat} {rest : List Job} {m : Memory}
    {r : Option Nat × Memory} (h : Runs p text rest (m.restoreRegister register value) r) :
    Runs p text (.restoreRegister register value :: rest) m r
  | accept {pc cursor : Nat} {op : Op} {rest : List Job} {m : Memory} (hop : p.ops[pc]? = some op)
    (heffect : p.execute text m pc cursor op = some .accept) :
    Runs p text (.resume pc cursor :: rest) m (some cursor, m)
  | fail {pc cursor : Nat} {op : Op} {rest : List Job} {m : Memory} {r : Option Nat × Memory}
    (hop : p.ops[pc]? = some op) (heffect : p.execute text m pc cursor op = some .fail)
    (h : Runs p text rest m r) : Runs p text (.resume pc cursor :: rest) m r
  | go {pc cursor pc' cursor' : Nat} {op : Op} {pushed rest : List Job} {m m' : Memory}
    {r : Option Nat × Memory} (hop : p.ops[pc]? = some op)
    (heffect : p.execute text m pc cursor op = some (.go pc' cursor' pushed m'))
    (h : Runs p text (.resume pc' cursor' :: (pushed ++ rest)) m' r) :
    Runs p text (.resume pc cursor :: rest) m r
  | refused {pc cursor next stop : Nat} {rest : List Job} {m after : Memory}
    {r : Option Nat × Memory} (hop : p.ops[pc]? = some (.look true next))
    (hbody : Runs p text [.resume (pc + 1) cursor] m (some stop, after))
    (h : Runs p text rest { after with slots := m.slots } r) :
    Runs p text (.resume pc cursor :: rest) m r
  | found {pc cursor next stop : Nat} {rest : List Job} {m after : Memory}
    {r : Option Nat × Memory} (hop : p.ops[pc]? = some (.look false next))
    (hbody : Runs p text [.resume (pc + 1) cursor] m (some stop, after))
    (h : Runs p text (.resume next cursor :: (m.slots.restore after.slots ++ rest)) after r) :
    Runs p text (.resume pc cursor :: rest) m r
  | absent {pc cursor next : Nat} {rest : List Job} {m after : Memory}
    {r : Option Nat × Memory} (hop : p.ops[pc]? = some (.look true next))
    (hbody : Runs p text [.resume (pc + 1) cursor] m (none, after))
    (h : Runs p text (.resume next cursor :: rest) after r) :
    Runs p text (.resume pc cursor :: rest) m r
  | missed {pc cursor next : Nat} {rest : List Job} {m after : Memory}
    {r : Option Nat × Memory} (hop : p.ops[pc]? = some (.look false next))
    (hbody : Runs p text [.resume (pc + 1) cursor] m (none, after))
    (h : Runs p text rest after r) : Runs p text (.resume pc cursor :: rest) m r

theorem setRegister_eq_some {m : Memory} {r value pc cursor : Nat} {effect : Effect}
    (h : setRegister m r value pc cursor = some effect) :
    ∃ old, m.registers[r]? = some old ∧
      effect = .go pc cursor [.restoreRegister r old] (m.restoreRegister r value) := by
  obtain ⟨old, hold, rfl⟩ := Option.map_eq_some_iff.mp h
  exact ⟨old, hold, rfl⟩

theorem setSlots_eq_some {m : Memory} {changes : List (Nat × Int)} {pc cursor : Nat}
    {effect : Effect} (h : setSlots m changes pc cursor = some effect) :
    ∃ pushed m', m.setSlots [] changes = some (pushed, m') ∧ effect = .go pc cursor pushed m' := by
  obtain ⟨⟨pushed, m'⟩, hset, rfl⟩ := Option.map_eq_some_iff.mp h
  exact ⟨pushed, m', hset, rfl⟩

/-- Only a look-around depends on a run of its own. -/
theorem eq_look_of_execute {m : Memory} {pc cursor : Nat} {op : Op} {negated : Bool} {next : Nat}
    (h : p.execute text m pc cursor op = some (.look negated next)) : op = .look negated next := by
  cases op with
  | capture group r d =>
    obtain ⟨origin, -, hset⟩ := Option.bind_eq_some_iff.mp h
    obtain ⟨pushed, m', -, he⟩ := setSlots_eq_some hset
    cases he
  | clear lo hi =>
    obtain ⟨pushed, m', -, he⟩ := setSlots_eq_some h
    cases he
  | _ => grind [execute, setRegister]

theorem runs_of_run {jobs : List Job} {m : Memory} {r : Option Nat × Memory}
    (h : p.run text jobs m = some r) : p.Runs text jobs m r := by
  refine run.partial_correctness p text (fun jobs m r => p.Runs text jobs m r) ?_ jobs m r h
  intro run ih jobs m r h
  cases jobs with
  | nil =>
    obtain rfl := Option.some.inj h
    exact .nil m
  | cons job rest =>
    cases job with
    | restoreSlot slot value => exact .restoreSlot (ih _ _ _ h)
    | restoreRegister r value => exact .restoreRegister (ih _ _ _ h)
    | resume pc cursor =>
      obtain ⟨op, hop, hexecute⟩ := Option.bind_eq_some_iff.mp h
      obtain ⟨effect, heffect, hnext⟩ := Option.bind_eq_some_iff.mp hexecute
      cases effect with
      | accept =>
        obtain rfl := Option.some.inj hnext
        exact .accept hop heffect
      | fail => exact .fail hop heffect (ih _ _ _ hnext)
      | go pc' cursor' pushed m' => exact .go hop heffect (ih _ _ _ hnext)
      | look negated next =>
        have hop : p.ops[pc]? = some (.look negated next) := eq_look_of_execute heffect ▸ hop
        obtain ⟨⟨found, after⟩, hbody, hbehind⟩ := Option.bind_eq_some_iff.mp hnext
        cases found with
        | none =>
          cases negated with
          | false => exact .missed hop (ih _ _ _ hbody) (ih _ _ _ hbehind)
          | true => exact .absent hop (ih _ _ _ hbody) (ih _ _ _ hbehind)
        | some stop =>
          cases negated with
          | false => exact .found hop (ih _ _ _ hbody) (ih _ _ _ hbehind)
          | true => exact .refused hop (ih _ _ _ hbody) (ih _ _ _ hbehind)

/-! ### Captures -/

/-- What the jobs on a stack make of the captures. -/
def undo : List Job → Slots → Slots
  | [], slots => slots
  | .restoreSlot slot value :: rest, slots => undo rest (slots.setIfInBounds slot value)
  | _ :: rest, slots => undo rest slots

theorem undo_append (jobs rest : List Job) (slots : Slots) :
    undo (jobs ++ rest) slots = undo rest (undo jobs slots) := by
  induction jobs generalizing slots with
  | nil => rfl
  | cons job jobs ih => cases job <;> exact ih _

theorem undo_setSlots {m m' : Memory} {pushed pushed' : List Job} {changes : List (Nat × Int)}
    (h : m.setSlots pushed changes = some (pushed', m')) :
    undo pushed' m'.slots = undo pushed m.slots ∧ m'.slots.size = m.slots.size := by
  induction changes generalizing m pushed with
  | nil =>
    obtain ⟨rfl, rfl⟩ := Prod.mk.inj (Option.some.inj h)
    exact ⟨rfl, rfl⟩
  | cons change changes ih =>
    obtain ⟨old, hold, hset⟩ := Option.bind_eq_some_iff.mp h
    obtain ⟨hundo, hsize⟩ := ih hset
    obtain ⟨hlt, rfl⟩ := Array.getElem?_eq_some_iff.mp hold
    refine ⟨hundo.trans ?_, hsize.trans (by simp [Memory.restoreSlot])⟩
    simp [undo, Memory.restoreSlot, Array.setIfInBounds, hlt]

/-- A stack that only restores slots. -/
def OnlySlots (jobs : List Job) : Prop := ∀ job ∈ jobs, ∃ slot value, job = .restoreSlot slot value

theorem onlySlots_cons {slot : Nat} {value : Int} {jobs : List Job} :
    OnlySlots (.restoreSlot slot value :: jobs) ↔ OnlySlots jobs := by
  simp [OnlySlots]

/-- Jobs that only restore slots are worked off at once. -/
theorem run_onlySlots {jobs : List Job} (h : OnlySlots jobs) (rest : List Job) (m : Memory) :
    p.run text (jobs ++ rest) m = p.run text rest { m with slots := undo jobs m.slots } := by
  induction jobs generalizing m with
  | nil => rfl
  | cons job jobs ih =>
    obtain ⟨slot, value, rfl⟩ := h job List.mem_cons_self
    rw [List.cons_append, run_restoreSlot, ih (onlySlots_cons.mp h)]
    rfl

theorem onlySlots_setSlots {m m' : Memory} {pushed pushed' : List Job}
    {changes : List (Nat × Int)} (hpushed : OnlySlots pushed)
    (h : m.setSlots pushed changes = some (pushed', m')) : OnlySlots pushed' := by
  induction changes generalizing m pushed with
  | nil =>
    obtain ⟨rfl, -⟩ := Prod.mk.inj (Option.some.inj h)
    exact hpushed
  | cons change changes ih =>
    obtain ⟨old, -, hset⟩ := Option.bind_eq_some_iff.mp h
    exact ih (onlySlots_cons.mpr hpushed) hset

theorem onlySlots_restoreFirst {saved now : Slots} {n : Nat} :
    OnlySlots (saved.restoreFirst now n) := by
  induction n with
  | zero => exact fun _ h => by cases h
  | succ n ih =>
    unfold Slots.restoreFirst
    split
    · split
      · exact ih
      · exact onlySlots_cons.mpr ih
    · exact ih

/-- What an instruction pushes takes back what it has done to the captures. -/
theorem undo_execute {m m' : Memory} {pc cursor pc' cursor' : Nat} {op : Op} {pushed : List Job}
    (h : p.execute text m pc cursor op = some (.go pc' cursor' pushed m')) :
    undo pushed m'.slots = m.slots ∧ m'.slots.size = m.slots.size := by
  cases op with
  | capture group r d =>
    obtain ⟨origin, -, hset⟩ := Option.bind_eq_some_iff.mp h
    obtain ⟨_, _, hchanges, he⟩ := setSlots_eq_some hset
    cases he
    exact undo_setSlots hchanges
  | clear lo hi =>
    obtain ⟨_, _, hchanges, he⟩ := setSlots_eq_some h
    cases he
    exact undo_setSlots hchanges
  | repeatNext counter mark min head =>
    obtain ⟨count, -, hcount⟩ := Option.bind_eq_some_iff.mp h
    obtain ⟨origin, -, hnext⟩ := Option.bind_eq_some_iff.mp hcount
    split at hnext
    · cases hnext
    · obtain ⟨old, -, he⟩ := setRegister_eq_some hnext
      cases he
      exact ⟨rfl, rfl⟩
  | _ => grind [execute, setRegister, undo, Memory.restoreRegister]

theorem undo_restoreFirst {saved now : Slots} (hsize : now.size = saved.size) {n : Nat}
    {slots : Slots} (hfirst : ∀ i < n, slots[i]? = now[i]?)
    (hlater : ∀ i, n ≤ i → slots[i]? = saved[i]?) :
    undo (saved.restoreFirst now n) slots = saved := by
  induction n generalizing slots with
  | zero => exact Array.ext_getElem? fun i => hlater i (Nat.zero_le i)
  | succ n ih =>
    have hkept (hn : slots[n]? = saved[n]?) : undo (saved.restoreFirst now n) slots = saved := by
      apply ih fun i hi => hfirst i (by omega)
      intro i hi
      rcases Nat.lt_or_eq_of_le hi with hlt | rfl
      · exact hlater i hlt
      · exact hn
    have hnow : slots[n]? = now[n]? := hfirst n (Nat.lt_succ_self n)
    unfold Slots.restoreFirst
    cases hsaved : saved[n]? with
    | none =>
      have hle := Array.getElem?_eq_none_iff.mp hsaved
      exact hkept (by rw [hnow, hsaved, Array.getElem?_eq_none (by omega)])
    | some value =>
      dsimp only
      split
      · rename_i hsame
        exact hkept (by rw [hnow, hsame, hsaved])
      · -- The job for the slot itself is worked off before those for the slots in front of it.
        have hlt : n < slots.size := by
          obtain ⟨hlt, -⟩ := Array.getElem?_eq_some_iff.mp hsaved
          apply Nat.lt_of_not_le
          intro hge
          have hnone := Array.getElem?_eq_none_iff.mp (hnow ▸ Array.getElem?_eq_none (by omega))
          omega
        apply ih
        · intro i hi
          rw [Array.getElem?_setIfInBounds_ne (by omega)]
          exact hfirst i (by omega)
        · intro i hi
          rcases Nat.lt_or_eq_of_le hi with hi | rfl
          · rw [Array.getElem?_setIfInBounds_ne (by omega)]
            exact hlater i hi
          · rw [Array.getElem?_setIfInBounds_self_of_lt hlt, hsaved]

/-- The jobs that a look-around leaves take back what its run has captured. -/
theorem undo_restore {saved now : Slots} (h : now.size = saved.size) :
    undo (saved.restore now) now = saved := by
  apply undo_restoreFirst h
  · exact fun _ _ => rfl
  · intro i hi
    rw [Array.getElem?_eq_none (h ▸ hi), Array.getElem?_eq_none hi]

theorem run_restore {saved now : Slots} (h : now.size = saved.size) (rest : List Job)
    (registers : Array Nat) :
    p.run text (saved.restore now ++ rest) ⟨registers, now⟩ =
      p.run text rest ⟨registers, saved⟩ := by
  rw [Slots.restore, run_onlySlots onlySlots_restoreFirst]
  exact congrArg (fun slots => p.run text rest ⟨registers, slots⟩) (undo_restore h)

theorem slots_of_runs {jobs : List Job} {m : Memory} {r : Option Nat × Memory}
    (h : p.Runs text jobs m r) :
    r.2.slots.size = m.slots.size ∧ (r.1 = none → r.2.slots = undo jobs m.slots) := by
  induction h with
  | nil m => exact ⟨rfl, fun _ => rfl⟩
  | restoreSlot _ ih => exact ⟨ih.1.trans (by simp [Memory.restoreSlot]), ih.2⟩
  | restoreRegister _ ih => exact ih
  | accept hop heffect => exact ⟨rfl, fun hnone => by cases hnone⟩
  | fail _ _ _ ih => exact ih
  | go _ heffect _ ih =>
    obtain ⟨hundo, hsize⟩ := undo_execute heffect
    refine ⟨ih.1.trans hsize, fun hnone => (ih.2 hnone).trans ?_⟩
    show undo (_ ++ _) _ = _
    rw [undo_append, hundo]
    rfl
  | refused _ _ _ _ ih => exact ih
  | found _ _ _ ihbody ih =>
    refine ⟨ih.1.trans ihbody.1, fun hnone => (ih.2 hnone).trans ?_⟩
    show undo (_ ++ _) _ = _
    rw [undo_append, undo_restore ihbody.1]
    rfl
  | absent _ _ _ ihbody ih =>
    refine ⟨ih.1.trans ihbody.1, fun hnone => (ih.2 hnone).trans ?_⟩
    exact congrArg (undo _) (ihbody.2 rfl)
  | missed _ _ _ ihbody ih =>
    refine ⟨ih.1.trans ihbody.1, fun hnone => (ih.2 hnone).trans ?_⟩
    exact congrArg (undo _) (ihbody.2 rfl)

/-! ### Jobs below -/

/-- The jobs below are worked off when those above have been worked off without success, with the
memory that these have left. -/
theorem Runs.run_append {jobs : List Job} {m : Memory} {r : Option Nat × Memory}
    (h : p.Runs text jobs m r) (rest : List Job) :
    p.run text (jobs ++ rest) m = if r.1.isSome then some r else p.run text rest r.2 := by
  -- A derivation that was run through by itself is a case of the same statement.
  have halone {jobs : List Job} {m : Memory} {r : Option Nat × Memory}
      (h : ∀ rest, p.run text (jobs ++ rest) m =
        if r.1.isSome then some r else p.run text rest r.2) : p.run text jobs m = some r := by
    obtain ⟨found, after⟩ := r
    have hrun := h []
    rw [List.append_nil, run_nil] at hrun
    cases found <;> exact hrun
  induction h generalizing rest with
  | nil m => rfl
  | restoreSlot _ ih => exact (run_restoreSlot ..).trans (ih rest)
  | restoreRegister _ ih => exact (run_restoreRegister ..).trans (ih rest)
  | accept hop heffect => exact run_of_accept hop heffect _
  | fail hop heffect _ ih => exact (run_of_fail hop heffect _).trans (ih rest)
  | go hop heffect _ ih =>
    rw [List.cons_append, run_of_go hop heffect, ← List.append_assoc]
    exact ih rest
  | refused hop _ _ ihbody ih => exact (run_of_look hop (halone ihbody) _).trans (ih rest)
  | found hop _ _ ihbody ih =>
    rw [List.cons_append, run_of_look hop (halone ihbody), runBehind, ← List.append_assoc]
    exact ih rest
  | absent hop _ _ ihbody ih => exact (run_of_look hop (halone ihbody) _).trans (ih rest)
  | missed hop _ _ ihbody ih => exact (run_of_look hop (halone ihbody) _).trans (ih rest)

/-- Backtracking past a look-around restores what it has captured. If the attempt fails behind the
look-around, the jobs below are resumed with the captures from in front of it. -/
theorem run_past_look {pc cursor next stop : Nat} {m after m' : Memory}
    (hop : p.ops[pc]? = some (.look false next))
    (hbody : p.run text [.resume (pc + 1) cursor] m = some (some stop, after))
    (hbehind : p.run text [.resume next cursor] after = some (none, m')) (rest : List Job) :
    p.run text (.resume pc cursor :: rest) m =
      p.run text rest { m' with slots := m.slots } := by
  have hsize : after.slots.size = m.slots.size := (slots_of_runs (runs_of_run hbody)).1
  have hslots : m'.slots = after.slots := (slots_of_runs (runs_of_run hbehind)).2 rfl
  have hfailed := (runs_of_run hbehind).run_append (m.slots.restore after.slots ++ rest)
  rw [run_of_look hop hbody]
  apply hfailed.trans
  rw [if_neg (by simp), ← run_restore hsize, ← hslots]

end Machine

end UnitRegex
