import UnitRegex.Proofs.Backtrack.Meaning
import UnitRegex.Proofs.Backtrack.Realized
import UnitRegex.Proofs.Pattern.Groups

/-!
Runs of the machine with one memory from the first instruction of a pattern. They all return, with
what trying the pattern gives. A run that fails leaves the captures as they were, and what the
registers hold in front of a run does not matter, so a search may go from one position to the next
with the registers that the last run has left.
-/

namespace UnitRegex

/-- The groups of a pattern that was read have numbers below their number. -/
theorem Source.groupsBelow_of_parse {s : Source} {p : Pattern} (h : s.parse = .ok p) :
    GroupsBelow p.groupCount p.root.captures p.root.leaves := by
  obtain ⟨-, hcount, -, -, hleaves⟩ := Source.outlined_of_parse h
  refine ⟨?_, fun n hn => ?_⟩
  · have hcaptures : p.root.captures = 0 :: p.body.captures := Term.captures_group ..
    rw [hcaptures, (Source.agreesWithScan_of_parse h).captures, hcount]
    simp
    omega
  · have hfits : 1 ≤ n ∧ n ≤ s.setting.groups.count := hleaves _ hn (numbered_scanGroups _)
    omega

namespace Pattern

variable {p : Pattern} {text : Text}

theorem stand_machine (p : Pattern) :
    Op.Stand p.machine.ops 0 ((p.root.layout .forward).ops 0 0 ++ [.accept]) := by
  rw [machine_eq, Op.Stand, List.drop_zero]

/-- Nothing is assumed of the registers in front of a run. -/
def registerScope (p : Pattern) : RegisterScope where
  inner := { r | (p.root.layout .forward).inner[r]? = some true }
  own := Set.univ
  inner_subset := Set.subset_univ _

/-- From its first instruction on the machine serves an attempt at the pattern. -/
theorem serves_attempt (hgroups : GroupsBelow p.groupCount p.root.captures p.root.leaves)
    (text : Text) {registers : Array Nat} (hregisters : p.machine.registers ≤ registers.size)
    {x : MatchState} (hslots : x.slots.size = 2 * p.groupCount) :
    p.machine.Serves text p.registerScope 0 registers x
      (p.root.attempt p.flags text .forward x some) := by
  have hmachine : p.machine.registers = (p.root.layout .forward).registers ∧
      p.machine.groupCount = p.groupCount ∧ p.machine.flags = p.flags := by
    rw [machine_eq]
    exact ⟨rfl, rfl, rfl⟩
  obtain ⟨hcount, hgroupCount, hflags⟩ := hmachine
  have hplaced : p.machine.Placed (p.root.layout .forward) 0 0 p.registerScope Set.univ
      registers.size := by
    refine ⟨p.stand_machine.left, ?_, Set.subset_univ _⟩
    intro i b hb
    obtain ⟨hi, -⟩ := List.getElem?_eq_some_iff.mp hb
    rw [Nat.zero_add]
    refine ⟨?_, Set.mem_univ i, Set.mem_univ i, ?_⟩
    · rw [hcount] at hregisters
      exact Nat.lt_of_lt_of_le hi hregisters
    · simp [registerScope, hb]
  have hend : p.machine.Meets text .forward p.registerScope Set.univ registers x.cursor
      (0 + (p.root.layout .forward).size) some := by
    intro after y _ _ _
    have hop := p.stand_machine.right.head
    rw [(p.root.layout .forward).length_ops] at hop
    exact Machine.serves_of_accept hop rfl
  rw [← hgroupCount] at hgroups hslots
  have hmeets := (p.root.realizes p.machine text .forward hgroups).meets hplaced hend
  rw [← hflags]
  exact hmeets registers x (.refl _ _) (.inl rfl) hslots

/-- Every run from the first instruction returns. It accepts where trying the pattern succeeds and
with the same captures, and leaves the captures as they were if it fails. -/
theorem exists_run (hgroups : GroupsBelow p.groupCount p.root.captures p.root.leaves) (text : Text)
    {m : Memory} (hregisters : p.machine.registers ≤ m.registers.size)
    (hslots : m.slots.size = 2 * p.groupCount) (cursor : Nat) :
    ∃ after found, p.machine.run text [.resume 0 cursor] m = some (found, after) ∧
      after.registers.size = m.registers.size ∧
      p.root.attempt p.flags text .forward ⟨cursor, m.slots⟩ some =
        found.map (⟨·, after.slots⟩) ∧
      (found = none → after.slots = m.slots) := by
  have hserves := serves_attempt hgroups text hregisters (x := ⟨cursor, m.slots⟩) hslots []
  cases hattempt : p.root.attempt p.flags text .forward ⟨cursor, m.slots⟩ some with
  | some y =>
    rw [hattempt] at hserves
    obtain ⟨registers, hagree, hrun⟩ := hserves
    exact ⟨⟨registers, y.slots⟩, some y.cursor, hrun, hagree.size, rfl, fun h => by cases h⟩
  | none =>
    rw [hattempt] at hserves
    obtain ⟨registers, hagree, hrun⟩ := hserves
    exact ⟨⟨registers, m.slots⟩, none, hrun.trans (Machine.run_nil _), hagree.size, rfl,
      fun _ => rfl⟩

/-- Two runs that begin with the same captures come to the same outcome and the same captures. -/
theorem exists_run_both (hgroups : GroupsBelow p.groupCount p.root.captures p.root.leaves)
    (text : Text) {slots : Slots} (hslots : slots.size = 2 * p.groupCount)
    {registers registers' : Array Nat} (hregisters : p.machine.registers ≤ registers.size)
    (hregisters' : p.machine.registers ≤ registers'.size) (cursor : Nat) :
    ∃ found final after after',
      p.machine.run text [.resume 0 cursor] ⟨registers, slots⟩ = some (found, ⟨after, final⟩) ∧
      p.machine.run text [.resume 0 cursor] ⟨registers', slots⟩ = some (found, ⟨after', final⟩) ∧
      after.size = registers.size := by
  obtain ⟨⟨after, final⟩, found, hrun, hsize, hattempt, hfailed⟩ :=
    exists_run hgroups text (m := ⟨registers, slots⟩) hregisters hslots cursor
  obtain ⟨⟨after', final'⟩, found', hrun', -, hattempt', hfailed'⟩ :=
    exists_run hgroups text (m := ⟨registers', slots⟩) hregisters' hslots cursor
  have hsame := hattempt.symm.trans hattempt'
  have hboth : found = found' ∧ final = final' := by
    cases found with
    | none =>
      cases found' with
      | none => exact ⟨rfl, (hfailed rfl).trans (hfailed' rfl).symm⟩
      | some stop' => cases hsame
    | some stop =>
      cases found' with
      | none => cases hsame
      | some stop' =>
        obtain ⟨rfl, rfl⟩ := MatchState.mk.inj (Option.some.inj hsame)
        exact ⟨rfl, rfl⟩
  obtain ⟨rfl, rfl⟩ := hboth
  exact ⟨found, final, after, after', hrun, hrun', hsize⟩

end Pattern

namespace Machine

/-- Runs at a number of positions until one accepts, each on memory of its own. -/
def freshAttempts (p : Machine) (text : Text) (start : Nat) : Nat → Option (Option Slots)
  | 0 => some none
  | more + 1 => do
    let (found, m) ← p.run text [.resume 0 start]
      ⟨Array.replicate p.registers 0, Slots.unset p.groupCount⟩
    match found with
    | some _ => some (some m.slots)
    | none => p.freshAttempts text (start + 1) more

/-- Failed attempts leave no trace. -/
structure Traceless (p : Machine) : Prop where
  /-- A run that fails leaves the captures as they were. -/
  restores : ∀ text cursor m m', p.run text [.resume 0 cursor] m = some (none, m') →
    m'.slots = m.slots
  /-- What the registers hold in front of a run makes no difference to its outcome and to the
  captures. -/
  independent : ∀ text cursor slots registers registers', slots.size = 2 * p.groupCount →
    p.registers ≤ registers.size → p.registers ≤ registers'.size →
    (p.run text [.resume 0 cursor] ⟨registers, slots⟩).map (fun r => (r.1, r.2.slots)) =
      (p.run text [.resume 0 cursor] ⟨registers', slots⟩).map fun r => (r.1, r.2.slots)
  /-- If an attempt fails behind a look-around that has succeeded, the jobs below it are worked off
  with the captures from in front of the look-around. -/
  past_look : ∀ text pc cursor next stop m after m', p.ops[pc]? = some (.look false next) →
    p.run text [.resume (pc + 1) cursor] m = some (some stop, after) →
    p.run text [.resume next cursor] after = some (none, m') →
    ∀ rest, p.run text (.resume pc cursor :: rest) m = p.run text rest { m' with slots := m.slots }
  /-- A search goes through the positions as if each run had memory of its own. -/
  attempts : ∀ text start count registers, p.registers ≤ registers.size →
    p.attempts text start count registers = p.freshAttempts text start count

end Machine

/-- The machine of a pattern that was read leaves no trace of failed attempts. -/
theorem Source.traceless_of_parse {s : Source} {p : Pattern} (h : s.parse = .ok p) :
    p.machine.Traceless := by
  have hgroups := Source.groupsBelow_of_parse h
  have hcount : p.machine.groupCount = p.groupCount := by rw [Pattern.machine_eq]
  exact {
    restores := fun text cursor m m' hrun =>
      (Machine.slots_of_runs (Machine.runs_of_run hrun)).2 rfl
    independent := by
      intro text cursor slots registers registers' hslots hregisters hregisters'
      rw [hcount] at hslots
      obtain ⟨found, final, after, after', hrun, hrun', -⟩ :=
        Pattern.exists_run_both hgroups text hslots hregisters hregisters' cursor
      rw [hrun, hrun']
      rfl
    past_look := fun text pc cursor next stop m after m' hop hbody hbehind =>
      Machine.run_past_look hop hbody hbehind
    attempts := by
      intro text start count
      induction count generalizing start with
      | zero => exact fun _ _ => rfl
      | succ count ih =>
        intro registers hregisters
        have hslots : (Slots.unset p.machine.groupCount).size = 2 * p.groupCount := by
          rw [Slots.unset, Array.size_replicate, hcount]
        have hfresh : p.machine.registers ≤ (Array.replicate p.machine.registers 0).size := by
          rw [Array.size_replicate]
        obtain ⟨found, final, after, after', hrun, hrun', hsize⟩ :=
          Pattern.exists_run_both hgroups text hslots hregisters hfresh start
        simp only [Machine.attempts, Machine.freshAttempts, hrun, hrun', Option.bind_eq_bind,
          Option.bind_some]
        cases found with
        | some stop => rfl
        | none => exact ih (start + 1) after (hsize ▸ hregisters) }

/-- In `(?=(a+))a*b\1` the look-ahead captures before the attempt behind it fails. -/
theorem Source.traceless_of_parse_look :
    ∃ p, Source.parse ⟨"(?=(a+))a*b\\1", {}, {}⟩ = .ok p ∧ p.machine.Traceless := by
  let p : Pattern :=
    ⟨.one (.cons (.look false false (.one (.cons (.group (some 1) none
        (.one (.cons (.group none (some ⟨1, none, true⟩)
          (.one (.cons (.unit (.single 97)) .nil))) .nil))) .nil)))
      (.cons (.group none (some ⟨0, none, true⟩) (.one (.cons (.unit (.single 97)) .nil)))
        (.cons (.unit (.single 98)) (.cons (.backReference 1) .nil)))), {}, 2, [], 0⟩
  have hparse : Source.parse ⟨"(?=(a+))a*b\\1", {}, {}⟩ = .ok p := by cbv
  exact ⟨p, hparse, Source.traceless_of_parse hparse⟩

end UnitRegex
