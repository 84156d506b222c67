import UnitRegex.Proofs.Backtrack.Targets
import UnitRegex.Proofs.Backtrack.Traceless

/-!
The machine with one memory terminates. Its runs return whatever the memory holds, no stack that a
run comes to has a job outside the instructions, and a search returns what the search with snapshots
finds.
-/

namespace UnitRegex

namespace Machine

variable {p : Machine} {text : Text}

/-! ### Where a run comes to -/

/-- The stacks that a run comes to, with the memory as it is then. The runs of look-arounds have
stacks of their own. -/
inductive Comes (p : Machine) (text : Text) (jobs : List Job) (m₀ : Memory) :
    List Job → Memory → Prop
  | start : Comes p text jobs m₀ jobs m₀
  | restoreSlot {slot : Nat} {value : Int} {rest : List Job} {m : Memory}
    (h : Comes p text jobs m₀ (.restoreSlot slot value :: rest) m) :
    Comes p text jobs m₀ rest (m.restoreSlot slot value)
  | restoreRegister {register value : Nat} {rest : List Job} {m : Memory}
    (h : Comes p text jobs m₀ (.restoreRegister register value :: rest) m) :
    Comes p text jobs m₀ rest (m.restoreRegister register value)
  | fail {pc cursor : Nat} {op : Op} {rest : List Job} {m : Memory}
    (h : Comes p text jobs m₀ (.resume pc cursor :: rest) m) (hop : p.ops[pc]? = some op)
    (heffect : p.execute text m pc cursor op = some .fail) : Comes p text jobs m₀ rest m
  | go {pc cursor pc' cursor' : Nat} {op : Op} {pushed rest : List Job} {m m' : Memory}
    (h : Comes p text jobs m₀ (.resume pc cursor :: rest) m) (hop : p.ops[pc]? = some op)
    (heffect : p.execute text m pc cursor op = some (.go pc' cursor' pushed m')) :
    Comes p text jobs m₀ (.resume pc' cursor' :: (pushed ++ rest)) m'
  | look {pc cursor next : Nat} {negated : Bool} {rest : List Job} {m : Memory}
    (h : Comes p text jobs m₀ (.resume pc cursor :: rest) m)
    (hop : p.ops[pc]? = some (.look negated next)) :
    Comes p text jobs m₀ [.resume (pc + 1) cursor] m
  | refused {pc cursor next stop : Nat} {rest : List Job} {m after : Memory}
    (h : Comes p text jobs m₀ (.resume pc cursor :: rest) m)
    (hop : p.ops[pc]? = some (.look true next))
    (hbody : p.run text [.resume (pc + 1) cursor] m = some (some stop, after)) :
    Comes p text jobs m₀ rest { after with slots := m.slots }
  | found {pc cursor next stop : Nat} {rest : List Job} {m after : Memory}
    (h : Comes p text jobs m₀ (.resume pc cursor :: rest) m)
    (hop : p.ops[pc]? = some (.look false next))
    (hbody : p.run text [.resume (pc + 1) cursor] m = some (some stop, after)) :
    Comes p text jobs m₀ (.resume next cursor :: (m.slots.restore after.slots ++ rest)) after
  | absent {pc cursor next : Nat} {rest : List Job} {m after : Memory}
    (h : Comes p text jobs m₀ (.resume pc cursor :: rest) m)
    (hop : p.ops[pc]? = some (.look true next))
    (hbody : p.run text [.resume (pc + 1) cursor] m = some (none, after)) :
    Comes p text jobs m₀ (.resume next cursor :: rest) after
  | missed {pc cursor next : Nat} {rest : List Job} {m after : Memory}
    (h : Comes p text jobs m₀ (.resume pc cursor :: rest) m)
    (hop : p.ops[pc]? = some (.look false next))
    (hbody : p.run text [.resume (pc + 1) cursor] m = some (none, after)) :
    Comes p text jobs m₀ rest after

/-- All attempts on a stack go on at one of some instructions. -/
def Within (P : Nat → Prop) (jobs : List Job) : Prop :=
  ∀ pc cursor, .resume pc cursor ∈ jobs → P pc

section

variable {P Q : Nat → Prop} {pc cursor : Nat} {jobs rest : List Job}

theorem within_cons {job : Job} : Within P (job :: rest) ↔
    (∀ pc cursor, job = .resume pc cursor → P pc) ∧ Within P rest := by
  simp only [Within, List.mem_cons]
  constructor
  · exact fun h => ⟨fun pc cursor he => h pc cursor (.inl he.symm),
      fun pc cursor hmem => h pc cursor (.inr hmem)⟩
  · rintro ⟨hjob, hrest⟩ pc cursor (he | hmem)
    · exact hjob pc cursor he.symm
    · exact hrest pc cursor hmem

theorem within_resume : Within P (.resume pc cursor :: rest) ↔ P pc ∧ Within P rest := by
  rw [within_cons]
  constructor
  · exact fun ⟨h, hrest⟩ => ⟨h pc cursor rfl, hrest⟩
  · exact fun ⟨h, hrest⟩ => ⟨fun _ _ he => (Job.resume.inj he).1 ▸ h, hrest⟩

theorem within_nil : Within P [] := fun _ _ h => by cases h

theorem Within.append (h : Within P jobs) (hrest : Within P rest) : Within P (jobs ++ rest) := by
  intro pc cursor hmem
  rcases List.mem_append.mp hmem with hjobs | hmem
  · exact h pc cursor hjobs
  · exact hrest pc cursor hmem

theorem Within.mono (h : Within P jobs) (hPQ : ∀ pc, P pc → Q pc) : Within Q jobs :=
  fun pc cursor hmem => hPQ pc (h pc cursor hmem)

theorem OnlySlots.within (h : OnlySlots jobs) : Within P jobs := by
  intro pc cursor hmem
  obtain ⟨slot, value, he⟩ := h _ hmem
  cases he

end

/-- An instruction only lets attempts go on at its targets. -/
theorem within_targets {m m' : Memory} {pc cursor pc' cursor' : Nat} {op : Op} {pushed : List Job}
    (h : p.execute text m pc cursor op = some (.go pc' cursor' pushed m')) :
    pc' ∈ op.targets pc ∧ Within (· ∈ op.targets pc) pushed := by
  have hregister {r value next : Nat} (hset : setRegister m r value next cursor =
      some (.go pc' cursor' pushed m')) : pc' = next ∧ Within (· ∈ op.targets pc) pushed := by
    obtain ⟨old, -, he⟩ := setRegister_eq_some hset
    cases he
    exact ⟨rfl, within_cons.mpr ⟨fun _ _ he => (by cases he), within_nil⟩⟩
  have hslots {changes : List (Nat × Int)} {next : Nat}
      (hset : setSlots m changes next cursor = some (.go pc' cursor' pushed m')) :
      pc' = next ∧ Within (· ∈ op.targets pc) pushed := by
    obtain ⟨_, _, hchanges, he⟩ := setSlots_eq_some hset
    cases he
    exact ⟨rfl, (onlySlots_setSlots (fun _ h => by cases h) hchanges).within⟩
  have hempty (he : pushed = []) : Within (· ∈ op.targets pc) pushed := he ▸ within_nil
  cases op with
  | capture group r d =>
    obtain ⟨origin, -, hset⟩ := Option.bind_eq_some_iff.mp h
    obtain ⟨rfl, hpushed⟩ := hslots hset
    exact ⟨List.mem_singleton_self _, hpushed⟩
  | clear lo hi =>
    obtain ⟨rfl, hpushed⟩ := hslots h
    exact ⟨List.mem_singleton_self _, hpushed⟩
  | mark r =>
    obtain ⟨rfl, hpushed⟩ := hregister h
    exact ⟨List.mem_singleton_self _, hpushed⟩
  | repeatInit counter =>
    obtain ⟨rfl, hpushed⟩ := hregister h
    exact ⟨List.mem_singleton_self _, hpushed⟩
  | repeatNext counter mark min head =>
    obtain ⟨count, -, hcount⟩ := Option.bind_eq_some_iff.mp h
    obtain ⟨origin, -, hnext⟩ := Option.bind_eq_some_iff.mp hcount
    split at hnext
    · cases hnext
    · obtain ⟨rfl, hpushed⟩ := hregister hnext
      exact ⟨List.mem_singleton_self _, hpushed⟩
  | split first second =>
    cases h
    exact ⟨List.mem_cons_self, within_resume.mpr ⟨by simp [Op.targets], within_nil⟩⟩
  | repeatTest counter q exit =>
    obtain ⟨count, -, htest⟩ := Option.bind_eq_some_iff.mp h
    split at htest
    · cases htest
      exact ⟨List.mem_cons_self, within_nil⟩
    · split at htest
      · cases htest
        exact ⟨by simp [Op.targets], within_nil⟩
      · split at htest
        · cases htest
          exact ⟨List.mem_cons_self, within_resume.mpr ⟨by simp [Op.targets], within_nil⟩⟩
        · cases htest
          exact ⟨by simp [Op.targets], within_resume.mpr ⟨List.mem_cons_self, within_nil⟩⟩
  | _ => grind [execute, Op.targets, within_nil]

/-- If the targets of every instruction lie in the program, so do all attempts that a run comes
to. -/
theorem Comes.within {jobs stack : List Job} {m₀ m : Memory}
    (htargets : ∀ (i : Nat) op, p.ops[i]? = some op → ∀ t ∈ op.targets i, t < p.ops.size)
    (hjobs : Within (· < p.ops.size) jobs) (h : p.Comes text jobs m₀ stack m) :
    Within (· < p.ops.size) stack := by
  induction h with
  | start => exact hjobs
  | restoreSlot _ ih => exact (within_cons.mp ih).2
  | restoreRegister _ ih => exact (within_cons.mp ih).2
  | fail _ _ _ ih => exact (within_resume.mp ih).2
  | go _ hop heffect ih =>
    obtain ⟨hnext, hpushed⟩ := within_targets heffect
    have hin := htargets _ _ hop
    exact within_resume.mpr ⟨hin _ hnext, (hpushed.mono hin).append (within_resume.mp ih).2⟩
  | look _ hop ih =>
    exact within_resume.mpr ⟨htargets _ _ hop _ List.mem_cons_self, within_nil⟩
  | refused _ _ _ ih => exact (within_resume.mp ih).2
  | found _ hop _ ih =>
    exact within_resume.mpr ⟨htargets _ _ hop _ (by simp [Op.targets]),
      onlySlots_restoreFirst.within.append (within_resume.mp ih).2⟩
  | absent _ hop _ ih =>
    exact within_resume.mpr ⟨htargets _ _ hop _ (by simp [Op.targets]), (within_resume.mp ih).2⟩
  | missed _ _ _ ih => exact (within_resume.mp ih).2

end Machine

namespace Pattern

variable {p : Pattern} {text : Text}

/-! ### The program -/

/-- All instructions lead into the program, and behind themselves unless they end an iteration. -/
theorem linked_machine (p : Pattern) :
    Op.AllLinked p.machine.ops (p.machine.ops.size - 1) 0 p.machine.ops.size := by
  have hsize : p.machine.ops.size = (p.root.layout .forward).size + 1 := by
    rw [machine_eq]
    simp [(p.root.layout .forward).length_ops]
  have hroot := (p.root.linked_layout .forward).all p.stand_machine.left
  have haccept := p.stand_machine.right.head
  rw [(p.root.layout .forward).length_ops] at haccept
  rw [hsize, Nat.add_sub_cancel]
  rw [Nat.zero_add] at hroot haccept
  exact hroot.append (Op.allLinked_single haccept (Op.linked_of_lt (by simp [Op.targets])))

/-! ### The search -/

/-- One run after the other comes to the same as one run after the other with snapshots. -/
theorem attempts_machine (hgroups : GroupsBelow p.groupCount p.root.captures p.root.leaves)
    (text : Text) (count start : Nat) {registers : Array Nat}
    (hregisters : p.machine.registers ≤ registers.size) :
    p.machine.attempts text start count registers =
      some (p.haltingProgram.matchFrom? text start count) := by
  have hgroupCount : p.machine.groupCount = p.groupCount := by rw [machine_eq]
  induction count generalizing start registers with
  | zero => rfl
  | succ count ih =>
    have hslots : (Slots.unset p.groupCount).size = 2 * p.groupCount := by
      rw [Slots.unset, Array.size_replicate]
    obtain ⟨⟨after, slots⟩, found, hrun, hsize, hattempt, -⟩ :=
      exists_run hgroups text (m := ⟨registers, Slots.unset p.groupCount⟩) hregisters hslots start
    have hat : p.haltingProgram.matchAt? text start = found.map fun _ => slots := by
      have hrunFrom := p.runFrom_eq_attempt text (p.haltingProgram.start start) rfl
        (by simp [Program.start])
      have hmap := congrArg (Option.map MatchState.slots) (hrunFrom.trans hattempt)
      rw [Option.map_map, Option.map_map] at hmap
      exact hmap
    rw [Machine.attempts, HaltingProgram.matchFrom?, hat, hgroupCount, hrun]
    cases found with
    | some stop => rfl
    | none => exact ih (start + 1) (hsize ▸ hregisters)

/-- A search with one memory returns, and finds what the search with snapshots finds. -/
theorem find_machine (hgroups : GroupsBelow p.groupCount p.root.captures p.root.leaves)
    (text : Text) (start : Nat) :
    p.machine.find text start = some (p.haltingProgram.find text start) := by
  have hflags : p.machine.flags = p.haltingProgram.flags := by
    rw [machine_eq]
    rfl
  have hregisters : p.machine.registers ≤ (Array.replicate p.machine.registers 0).size := by
    rw [Array.size_replicate]
  rw [Machine.find, HaltingProgram.find, attempts_machine hgroups text _ start hregisters, hflags]
  split
  · rfl
  · rw [Option.bind_eq_bind, Option.bind_some]
    cases p.haltingProgram.matchFrom? text start _ <;> rfl

/-- Backtracking on the instructions of a pattern terminates. -/
structure Terminates (p : Pattern) : Prop where
  /-- No target is left open. -/
  patched : Op.AllLinked p.machine.ops (p.machine.ops.size - 1) 0 p.machine.ops.size
  /-- Whatever stack a run comes to, all attempts on it go on inside the program. -/
  inside : ∀ text cursor m jobs m', p.machine.Comes text [.resume 0 cursor] m jobs m' →
    ∀ pc cursor', .resume pc cursor' ∈ jobs → pc < p.machine.ops.size
  /-- Every run returns. -/
  halts : ∀ text cursor m, p.machine.registers ≤ m.registers.size →
    m.slots.size = 2 * p.machine.groupCount → ∃ r, p.machine.run text [.resume 0 cursor] m = some r
  /-- Every search returns what the search with snapshots finds. -/
  returns : ∀ text start, p.machine.find text start = some (p.haltingProgram.find text start)

end Pattern

/-- Backtracking terminates for every pattern that was read. -/
theorem Source.terminates_of_parse {s : Source} {p : Pattern} (h : s.parse = .ok p) :
    p.Terminates := by
  have hgroups := Source.groupsBelow_of_parse h
  have hlinked := p.linked_machine
  have htargets : ∀ (i : Nat) op, p.machine.ops[i]? = some op →
      ∀ t ∈ op.targets i, t < p.machine.ops.size := by
    intro i op hop t ht
    obtain ⟨hi, -⟩ := Array.getElem?_eq_some_iff.mp hop
    obtain ⟨op', hop', hlinks⟩ := hlinked i (Nat.zero_le i) hi
    obtain rfl := Option.some.inj (hop'.symm.trans hop)
    have hle := hlinks.le_stop t ht
    omega
  exact {
    patched := hlinked
    inside := by
      intro text cursor m jobs m' hcomes
      have hpos : 0 < p.machine.ops.size := by
        rw [Pattern.machine_eq]
        simp
      exact hcomes.within htargets (Machine.within_resume.mpr ⟨hpos, Machine.within_nil⟩)
    halts := by
      intro text cursor m hregisters hslots
      have hgroupCount : p.machine.groupCount = p.groupCount := by rw [Pattern.machine_eq]
      rw [hgroupCount] at hslots
      obtain ⟨after, found, hrun, -⟩ := Pattern.exists_run hgroups text hregisters hslots cursor
      exact ⟨_, hrun⟩
    returns := Pattern.find_machine hgroups }

/-- In `(?<=a)(?:(b)*\1){2,}` a mandatory iteration may be empty, and another loop stands in
it. -/
theorem Source.terminates_of_parse_nested :
    ∃ p, Source.parse ⟨"(?<=a)(?:(b)*\\1)\x7b2,\x7d", {}, {}⟩ = .ok p ∧ p.Terminates := by
  let p : Pattern :=
    ⟨.one (.cons (.look true false (.one (.cons (.unit (.single 97)) .nil)))
      (.cons (.group none (some ⟨2, none, true⟩)
        (.one (.cons (.group (some 1) (some ⟨0, none, true⟩)
            (.one (.cons (.unit (.single 98)) .nil)))
          (.cons (.backReference 1) .nil)))) .nil)), {}, 2, [], 1⟩
  have hparse : Source.parse ⟨"(?<=a)(?:(b)*\\1)\x7b2,\x7d", {}, {}⟩ = .ok p := by cbv
  exact ⟨p, hparse, Source.terminates_of_parse hparse⟩

end UnitRegex
