import UnitRegex.Backtrack.Search
import UnitRegex.Proofs.Backtrack.Runs
import UnitRegex.Proofs.Matching.Yields

/-!
The code of a pattern against its meaning. A piece of code that is placed anywhere unfolds a
snapshot in front of it to snapshots behind it, and these stand for the outcomes of the part of the
pattern that it was made for, in the same order.
-/

namespace UnitRegex

/-- What the meaning of a pattern knows of a snapshot. -/
def Snapshot.matchState (s : Snapshot) : MatchState := ⟨s.cursor, s.slots⟩

@[simp] theorem Snapshot.matchState_jump (s : Snapshot) (offset : Nat) :
    (s.jump offset).matchState = s.matchState := rfl

@[simp] theorem Snapshot.matchState_setRegister (s : Snapshot) (r value : Nat) :
    (s.setRegister r value).matchState = s.matchState := rfl

namespace Program

variable {p : Program} {text : Text} {d : Direction} {lo hi : Nat}

theorem unfolding (p : Program) (text : Text) : Unfolding (p.Unfolds text) :=
  ⟨Unfolds.refl, Unfolds.trans, Unfolds.append⟩

/-- Some snapshots unfold to ones with a property that stand for a list of states. -/
abbrev Yields (p : Program) (text : Text) (Q : Snapshot → Prop) (before : List Snapshot)
    (states : List MatchState) : Prop :=
  UnitRegex.Yields (p.Unfolds text) Snapshot.matchState Q before states

theorem yields_of_next {Q : Snapshot → Prop} {s : Snapshot} {ways : List Snapshot}
    {states : List MatchState} (h : p.step text s = .next ways)
    (hways : p.Yields text Q ways states) : p.Yields text Q [s] states :=
  (unfolding p text).unfold (unfolds_of_next h) hways

/-- A piece of code with the registers from `lo` up to `hi` leads to the outcomes of a behavior. -/
def CodeYields (p : Program) (text : Text) (d : Direction) (lo hi : Nat) (c : Code)
    (f : Behavior) : Prop :=
  ∀ s : Snapshot, Code.At p.code s.pc c → hi ≤ s.registers.size →
    p.Yields text (fun t => t.pc = s.pc + c.length ∧ Keeps text d lo hi s t) [s] (f s.matchState)

theorem CodeYields.mono {lo' hi' : Nat} {c : Code} {f : Behavior}
    (h : p.CodeYields text d lo' hi' c f) (hlo : lo ≤ lo') (hhi : hi' ≤ hi) :
    p.CodeYields text d lo hi c f := by
  intro s hat hs
  exact (h s hat (by omega)).imp fun t ht => ⟨ht.1, ht.2.mono hlo hhi⟩

theorem codeYields_nil : p.CodeYields text d lo hi [] fun x => [x] := by
  intro s _ _
  exact (unfolding p text).single ⟨rfl, .of_eq rfl rfl⟩

theorem CodeYields.append {a b : Code} {f g : Behavior} (ha : p.CodeYields text d lo hi a f)
    (hb : p.CodeYields text d lo hi b g) : p.CodeYields text d lo hi (a ++ b) (f.andThen g) := by
  intro s hat hs
  refine (unfolding p text).bind (ha s hat.left hs) fun t ht => ?_
  obtain ⟨hpc, hst⟩ := ht
  refine (hb t (hpc ▸ hat.right) (by rw [hst.size]; exact hs)).imp fun u hu => ?_
  refine ⟨?_, hst.trans hu.2⟩
  rw [hu.1, hpc, List.length_append, Nat.add_assoc]

/-- An instruction that only goes on to the next one. -/
theorem codeYields_single {i : Instruction} {f : Behavior}
    (h : ∀ s, ∃ ways, p.execute text s i = .next ways ∧
      ways.map Snapshot.matchState = f s.matchState ∧
      ∀ t ∈ ways, t.pc = s.pc + 1 ∧ Keeps text d lo hi s t) :
    p.CodeYields text d lo hi [i] f := by
  intro s hat _
  obtain ⟨ways, hexec, hmap, hways⟩ := h s
  exact ⟨ways, hmap, hways, unfolds_of_next ((step_eq hat.head).trans hexec)⟩

theorem codeYields_read (set : CharSet) :
    p.CodeYields text d lo hi [.read set d] (.unit text d set) := by
  refine codeYields_single fun s => ?_
  simp only [execute, Behavior.unit, Snapshot.matchState]
  cases hread : text.read s.cursor d with
  | none => exact ⟨[], rfl, rfl, by simp⟩
  | some next =>
    refine ⟨_, rfl, ?_, ?_⟩
    · by_cases hset : set.contains next.1 <;>
        simp [hset, Snapshot.matchState, MatchState.moveTo, Snapshot.jump]
    · intro t ht
      split at ht
      · obtain rfl := List.mem_singleton.mp ht
        exact ⟨rfl, Text.moves_of_read hread, rfl, fun _ _ => rfl⟩
      · simp at ht

theorem codeYields_anchor (kind : Anchor) :
    p.CodeYields text d lo hi [.anchor kind]
      (.check fun cursor => kind.holds p.flags.multiline text cursor) := by
  refine codeYields_single fun s => ⟨_, rfl, ?_, ?_⟩
  · simp only [Behavior.check, Snapshot.matchState]
    by_cases hholds : kind.holds p.flags.multiline text s.cursor <;>
      simp [hholds, Snapshot.jump, Snapshot.matchState]
  · intro t ht
    split at ht
    · obtain rfl := List.mem_singleton.mp ht
      exact ⟨rfl, .of_eq rfl rfl⟩
    · simp at ht

theorem codeYields_backReference (group : Nat) :
    p.CodeYields text d lo hi [.backReference group d] fun x =>
      ((text.readGroup p.flags x.slots group x.cursor d).map x.moveTo).toList := by
  refine codeYields_single fun s => ?_
  simp only [execute, Snapshot.matchState]
  cases hread : text.readGroup p.flags s.slots group s.cursor d with
  | none => exact ⟨[], rfl, rfl, by simp⟩
  | some cursor =>
    refine ⟨_, rfl, rfl, ?_⟩
    intro t ht
    obtain rfl := List.mem_singleton.mp ht
    exact ⟨rfl, Text.moves_of_readGroup hread, rfl, fun _ _ => rfl⟩

theorem codeYields_clear (span : Option (Nat × Nat)) :
    p.CodeYields text d lo hi (.clear span) fun x => [x.clear span] := by
  cases span with
  | none => exact codeYields_nil
  | some range =>
    refine codeYields_single fun s => ⟨_, rfl, rfl, ?_⟩
    intro t ht
    obtain rfl := List.mem_singleton.mp ht
    exact ⟨rfl, .of_eq rfl rfl⟩

theorem yields_capture (group r : Nat) (s : Snapshot)
    (hget : p.code[s.pc]? = some (.capture group r d)) :
    p.Yields text (fun t => t.pc = s.pc + 1 ∧ Keeps text d lo hi s t) [s]
      [s.matchState.record d group (s.register r)] := by
  cases d with
  | forward =>
    exact yields_of_next (step_eq hget) ((unfolding p text).single
      (s := (s.capture group (s.register r) s.cursor).jump 1) ⟨rfl, .of_eq rfl rfl⟩)
  | backward =>
    exact yields_of_next (step_eq hget) ((unfolding p text).single
      (s := (s.capture group s.cursor (s.register r)).jump 1) ⟨rfl, .of_eq rfl rfl⟩)

/-- A pass through a group. Its register keeps the position at which the group was entered. -/
theorem codeYields_pass {r : Nat} {capture : Option Nat} {body : Code} {f : Behavior}
    (hlo : lo ≤ r) (hhi : r < hi) (h : p.CodeYields text d (r + 1) hi body f) :
    p.CodeYields text d lo hi (.pass d r capture body) (.pass d capture none f) := by
  cases capture with
  | none =>
    have hf : Behavior.pass d none none f = f := by
      funext x
      simp [Behavior.pass, MatchState.clear, MatchState.recordAny]
    rw [hf]
    exact h.mono (by omega) (Nat.le_refl hi)
  | some group =>
    intro s hat hs
    have hlen : (Code.pass d r (some group) body).length = body.length + 2 := by
      simp [Code.pass]
    let entered := (s.setRegister r s.cursor).jump 1
    have henter : p.step text s = .next [entered] := step_eq hat.head
    have hse : Keeps text d lo hi s entered := .setRegister hlo hhi rfl rfl
    have hbody := h entered hat.tail.left (by rw [hse.size]; exact hs)
    have hclose : ∀ t, t.pc = entered.pc + body.length ∧ Keeps text d (r + 1) hi entered t →
        p.Yields text (fun u => u.pc = s.pc + (Code.pass d r (some group) body).length ∧
          Keeps text d lo hi s u) [t] [t.matchState.record d group s.cursor] := by
      intro t ht
      obtain ⟨hpc, hkeep⟩ := ht
      have hmark : t.register r = s.cursor := by
        rw [hkeep.others r (by omega)]
        exact s.register_setRegister _ (by omega)
      have hget : p.code[t.pc]? = some (.capture group r d) := by
        rw [hpc]
        exact hat.tail.right.head
      have hentered : entered.pc = s.pc + 1 := rfl
      rw [← hmark]
      have hst : Keeps text d lo hi s t := hse.trans (hkeep.mono (by omega) (Nat.le_refl hi))
      refine (yields_capture group r t hget).imp fun u hu => ⟨by omega, hst.trans hu.2⟩
    have hpass := yields_of_next henter
      ((unfolding p text).bind (f := fun x => [x.record d group s.cursor]) hbody hclose)
    rw [← List.map_eq_flatMap] at hpass
    exact hpass

theorem codeYields_choice {a b : Code} {f g : Behavior} (ha : p.CodeYields text d lo hi a f)
    (hb : p.CodeYields text d lo hi b g) :
    p.CodeYields text d lo hi (.choice a b) (f.orElse g) := by
  intro s hat hs
  have hlen : (Code.choice a b).length = a.length + b.length + 2 := by
    simp only [Code.choice, List.length_cons, List.length_append]
    omega
  have hrest : Code.At p.code (s.pc + 1 + a.length) (.jump (b.length + 1) :: b) := hat.tail.right
  have hsplit : p.step text s = .next ([s.jump 1] ++ [s.jump (a.length + 2)]) :=
    step_eq hat.head
  refine yields_of_next hsplit ((unfolding p text).join ?_ ?_)
  · have hjump := (unfolding p text).bind (f := fun x => [x]) (ha (s.jump 1) hat.tail.left hs)
      (Q := fun u => u.pc = s.pc + (Code.choice a b).length ∧ Keeps text d lo hi s u) ?_
    · rwa [List.flatMap_singleton'] at hjump
    · intro t ht
      obtain ⟨hpc, hkeep⟩ := ht
      simp only [Snapshot.jump] at hpc
      have hget : p.code[t.pc]? = some (.jump (b.length + 1)) := hpc ▸ hrest.head
      refine yields_of_next (step_eq hget)
        ((unfolding p text).single (s := t.jump (b.length + 1)) ?_)
      refine ⟨?_, hkeep.moves, hkeep.size, hkeep.others⟩
      simp only [Snapshot.jump]
      omega
  · have hsecond : Code.At p.code (s.jump (a.length + 2)).pc b := by
      have := hrest.tail
      rwa [show s.pc + 1 + a.length + 1 = s.pc + (a.length + 2) by omega] at this
    refine (hb (s.jump (a.length + 2)) hsecond hs).imp fun u hu => ?_
    obtain ⟨hpc, hkeep⟩ := hu
    refine ⟨?_, hkeep.moves, hkeep.size, hkeep.others⟩
    simp only [Snapshot.jump] at hpc
    omega

/-- A look-around. Its code is run on a stack of its own and decided by its first outcome. -/
theorem codeYields_look {e : Direction} {negated : Bool} {body : Code} {f : Behavior}
    (h : p.CodeYields text e lo hi body f) :
    p.CodeYields text d lo hi (.look negated body) (.look negated f) := by
  intro s hat hs
  have hlen : (Code.look negated body).length = body.length + 2 := by simp [Code.look]
  have hstep : p.step text s = .look negated (body.length + 2) := step_eq hat.head
  obtain ⟨inner, hmap, hkeeps, hunfold⟩ := h (s.jump 1) hat.tail.left hs
  have haccept : ∀ t ∈ inner, p.step text t = .accept := by
    intro t ht
    have hget : p.code[t.pc]? = some .accept := by
      rw [(hkeeps t ht).1]
      exact hat.tail.right.head
    exact (step_eq hget).trans rfl
  have hlook : p.Runs text [s.jump 1] inner.head? := by
    have := hunfold [] inner.head?
    simp only [List.append_nil] at this
    exact this (runs_head? haccept)
  have hhead : (f s.matchState).head? = inner.head?.map Snapshot.matchState := by
    rw [← List.head?_map, hmap]
    rfl
  have hbehind (slots : Slots) : ∀ t ∈ [{ s.jump (body.length + 2) with slots := slots }],
      t.pc = s.pc + (Code.look negated body).length ∧ Keeps text d lo hi s t := by
    intro t ht
    obtain rfl := List.mem_singleton.mp ht
    exact ⟨by rw [hlen]; rfl, .of_eq rfl rfl⟩
  cases hinner : inner.head? with
  | none =>
    rw [hinner] at hlook hhead
    cases negated with
    | false =>
      refine ⟨[], by simp only [Behavior.look, hhead, Option.map_none]; rfl, by simp, ?_⟩
      intro rest r hrun
      exact .fail hstep hlook rfl hrun
    | true =>
      refine ⟨[s.jump (body.length + 2)], ?_, hbehind s.slots, ?_⟩
      · simp only [Behavior.look, hhead, Option.map_none]
        rfl
      · intro rest r hrun
        exact .pass hstep hlook (by simp) hrun
  | some y =>
    rw [hinner] at hlook hhead
    cases negated with
    | false =>
      refine ⟨[{ s.jump (body.length + 2) with slots := y.slots }], ?_, hbehind y.slots, ?_⟩
      · simp only [Behavior.look, hhead, Option.map_some]
        rfl
      · intro rest r hrun
        exact .pass hstep hlook (by simp) hrun
    | true =>
      refine ⟨[], by simp only [Behavior.look, hhead, Option.map_some]; rfl, by simp, ?_⟩
      intro rest r hrun
      exact .fail hstep hlook rfl hrun

/-- The end of an iteration. The machine compares positions, the meaning of a loop what is left of
the text; the two agree since the body of a loop moves in one direction. -/
theorem step_loopNext {r min offset : Nat} {origin : Snapshot} {s : Snapshot}
    (hget : p.code[s.pc]? = some (.loopNext r (r + 1) min offset))
    (hmark : s.register (r + 1) = origin.cursor)
    (hmoves : text.Moves d origin.cursor s.cursor) :
    p.step text s = .next
      (if min ≤ s.register r ∧ text.left d origin.cursor ≤ text.left d s.cursor then []
      else [{ s.setRegister r (s.register r + 1) with pc := s.pc - offset }]) := by
  rw [step_eq hget]
  simp only [execute, hmark, hmoves.eq_iff]
  split <;> rfl

/-- A loop. Its first register counts the iterations, its second one keeps where the last one
began. -/
theorem codeYields_loop {q : Quantifier} {body : Code} {f : Behavior} (hhi : lo + 2 ≤ hi)
    (h : p.CodeYields text d (lo + 2) hi body f) :
    p.CodeYields text d lo hi (.loop lo q body) (.repeated text d q f 0) := by
  intro s hat hs
  have hlen : (Code.loop lo q body).length = body.length + 4 := by simp [Code.loop]
  have hhead := hat.tail
  have hbody : Code.At p.code (s.pc + 3)
      (body ++ [.loopNext lo (lo + 1) q.min (body.length + 2)]) := hhead.tail.tail
  generalize hexit : s.pc + (Code.loop lo q body).length = exit
  -- The measure drops as in the recursion of `Behavior.repeated`.
  have again : ∀ n t, t.pc = s.pc + 1 → Keeps text d lo hi s t →
      q.min - t.register lo + text.left d t.cursor < n →
      p.Yields text (fun u => u.pc = exit ∧ Keeps text d lo hi s u) [t]
        (Behavior.repeated text d q f (t.register lo) t.matchState) := by
    intro n
    induction n with
    | zero => exact fun _ _ _ hn => absurd hn (Nat.not_lt_zero _)
    | succ n ih =>
      intro t ht hst hn
      have hsize : lo + 2 ≤ t.registers.size := by
        rw [hst.size]
        omega
      have hleave : p.Yields text (fun u => u.pc = exit ∧ Keeps text d lo hi s u)
          [t.jump (body.length + 3)] [t.matchState] := by
        refine (unfolding p text).single ⟨?_, hst.trans (.of_eq rfl rfl)⟩
        simp only [Snapshot.jump]
        omega
      have henter : p.Yields text (fun u => u.pc = exit ∧ Keeps text d lo hi s u) [t.jump 1]
          ((f t.matchState).flatMap fun y =>
            if q.min ≤ t.register lo ∧ text.left d t.cursor ≤ text.left d y.cursor then []
            else Behavior.repeated text d q f (t.register lo + 1) y) := by
        have hmark : p.code[(t.jump 1).pc]? = some (.mark (lo + 1)) := by
          rw [Snapshot.jump, ht]
          exact hhead.tail.head
        refine yields_of_next (step_eq hmark) ?_
        have hmatch : (((t.jump 1).setRegister (lo + 1) (t.jump 1).cursor).jump 1).matchState =
            t.matchState := rfl
        have hupc : (((t.jump 1).setRegister (lo + 1) (t.jump 1).cursor).jump 1).pc =
            t.pc + 1 + 1 := rfl
        have hmarked : (((t.jump 1).setRegister (lo + 1) (t.jump 1).cursor).jump 1).register
            (lo + 1) = t.cursor :=
          (t.jump 1).register_setRegister _ (by simp only [Snapshot.jump]; omega)
        have hcount : (((t.jump 1).setRegister (lo + 1) (t.jump 1).cursor).jump 1).register lo =
            t.register lo := (t.jump 1).register_setRegister_of_ne _ (by omega)
        have htu : Keeps text d lo hi t
            (((t.jump 1).setRegister (lo + 1) (t.jump 1).cursor).jump 1) :=
          .setRegister (r := lo + 1) (v := t.cursor) (by omega) (by omega) rfl rfl
        generalize ((t.jump 1).setRegister (lo + 1) (t.jump 1).cursor).jump 1 = u at *
        rw [ht] at hupc
        rw [← hmatch]
        refine (unfolding p text).bind
          (h u (hupc ▸ hbody.left) (by rw [htu.size, hst.size]; exact hs)) fun v hv => ?_
        obtain ⟨hvpc, huv⟩ := hv
        have hvcount : v.register lo = t.register lo := by
          rw [huv.others lo (by omega), hcount]
        have hvmark : v.register (lo + 1) = t.cursor := by
          rw [huv.others (lo + 1) (by omega), hmarked]
        have hvget : p.code[v.pc]? =
            some (.loopNext lo (lo + 1) q.min (body.length + 2)) := by
          rw [hvpc, hupc]
          exact hbody.right.head
        have hsv : Keeps text d lo hi s v :=
          (hst.trans htu).trans (huv.mono (by omega) (Nat.le_refl _))
        have hmoves : text.Moves d t.cursor v.cursor := by
          have := huv.moves
          rwa [show u.cursor = t.cursor from congrArg MatchState.cursor hmatch] at this
        have hstep := step_loopNext hvget hvmark hmoves
        rw [hvcount] at hstep
        refine yields_of_next hstep ?_
        by_cases hempty : q.min ≤ t.register lo ∧ text.left d t.cursor ≤ text.left d v.cursor
        · have hempty' : q.min ≤ t.register lo ∧
              text.left d t.cursor ≤ text.left d v.matchState.cursor := hempty
          rw [if_pos hempty, if_pos hempty']
          exact (unfolding p text).nil
        · have hempty' : ¬(q.min ≤ t.register lo ∧
              text.left d t.cursor ≤ text.left d v.matchState.cursor) := hempty
          rw [if_neg hempty, if_neg hempty']
          have hset : ({ v.setRegister lo (t.register lo + 1) with
              pc := v.pc - (body.length + 2) } : Snapshot).register lo = t.register lo + 1 :=
            v.register_setRegister _ (by rw [huv.size, htu.size]; omega)
          have hle := hmoves.left_le
          have hnext := ih { v.setRegister lo (t.register lo + 1) with
              pc := v.pc - (body.length + 2) } (by simp only; omega)
            (hsv.trans (.setRegister (r := lo) (v := t.register lo + 1) (by omega) (by omega)
              rfl rfl))
            (by rw [hset]; simp only [Snapshot.setRegister]; omega)
          rw [hset] at hnext
          exact hnext
      have hget : p.code[t.pc]? = some (.loopHead lo q (body.length + 3)) := ht ▸ hhead.head
      rw [Behavior.repeated]
      by_cases hmin : t.register lo < q.min
      · have hstep : p.step text t = .next [t.jump 1] := by
          rw [step_eq hget]
          simp only [execute, if_pos hmin]
        rw [if_pos hmin]
        exact yields_of_next hstep henter
      · rw [if_neg hmin]
        by_cases hmax : q.max.any (· ≤ t.register lo)
        · have hstep : p.step text t = .next [t.jump (body.length + 3)] := by
            rw [step_eq hget]
            simp only [execute, if_neg hmin, if_pos hmax]
          rw [if_pos hmax]
          exact yields_of_next hstep hleave
        · rw [if_neg hmax]
          by_cases hgreedy : q.greedy
          · have hstep : p.step text t = .next ([t.jump 1] ++ [t.jump (body.length + 3)]) := by
              rw [step_eq hget]
              simp only [execute, if_neg hmin, if_neg hmax, if_pos hgreedy]
              rfl
            rw [if_pos hgreedy]
            exact yields_of_next hstep ((unfolding p text).join henter hleave)
          · have hstep : p.step text t = .next ([t.jump (body.length + 3)] ++ [t.jump 1]) := by
              rw [step_eq hget]
              simp only [execute, if_neg hmin, if_neg hmax, if_neg hgreedy]
              rfl
            rw [if_neg hgreedy]
            exact yields_of_next hstep ((unfolding p text).join hleave henter)
  have hzero : ((s.setRegister lo 0).jump 1).register lo = 0 :=
    s.register_setRegister _ (by omega)
  have hrepeat := again _ ((s.setRegister lo 0).jump 1) rfl
    (.setRegister (r := lo) (v := 0) (by omega) (by omega) rfl rfl) (Nat.lt_succ_self _)
  rw [hzero] at hrepeat
  exact yields_of_next (step_eq hat.head) hrepeat

end Program

mutual

/-- The code of a term leads to the outcomes of the term. -/
theorem Term.code_yields (p : Program) (text : Text) (d : Direction) (r : Nat) (t : Term) :
    p.CodeYields text d r (r + t.registers) (t.code d r) (t.outcomes p.flags text d) := by
  match t with
  | .unit set => exact Program.codeYields_read set
  | .anchor kind => exact Program.codeYields_anchor kind
  | .backReference group => exact Program.codeYields_backReference group
  | .look behind negated body =>
    exact Program.codeYields_look (body.code_yields p text (.ofLook behind) r)
  | .group capture none body =>
    exact Program.codeYields_pass (Nat.le_refl r) (by simp only [Term.registers]; omega)
      ((body.code_yields p text d (r + 1)).mono (Nat.le_refl _)
        (by simp only [Term.registers]; omega))
  | .group capture (some q) body =>
    have hregisters : (Term.group capture (some q) body).registers = body.registers + 3 := rfl
    have hbody : p.CodeYields text d (r + 2 + 1) (r + (body.registers + 3))
        (body.code d (r + 3)) (body.outcomes p.flags text d) :=
      (body.code_yields p text d (r + 3)).mono (Nat.le_refl _) (by omega)
    have hpass : p.CodeYields text d (r + 2) (r + (body.registers + 3))
        (.pass d (r + 2) capture (body.code d (r + 3)))
        (.pass d capture none (body.outcomes p.flags text d)) :=
      Program.codeYields_pass (Nat.le_refl _) (by omega) hbody
    have hiteration :=
      (Program.codeYields_clear (Term.group capture (some q) body).groupSpan).append hpass
    rw [Behavior.clear_andThen_pass] at hiteration
    rw [hregisters]
    exact Program.codeYields_loop (by omega) hiteration

theorem Branch.code_yields (p : Program) (text : Text) (d : Direction) (r : Nat) (b : Branch) :
    p.CodeYields text d r (r + b.registers) (b.code d r) (b.outcomes p.flags text d) := by
  match b with
  | .nil => exact Program.codeYields_nil
  | .cons t rest =>
    have ht : p.CodeYields text d r (r + (t.registers + rest.registers)) (t.code d r)
        (t.outcomes p.flags text d) :=
      (t.code_yields p text d r).mono (Nat.le_refl r) (by omega)
    have hrest : p.CodeYields text d r (r + (t.registers + rest.registers))
        (rest.code d (r + t.registers)) (rest.outcomes p.flags text d) :=
      (rest.code_yields p text d (r + t.registers)).mono (by omega) (by omega)
    cases d with
    | forward => exact ht.append hrest
    | backward => exact hrest.append ht

theorem Choice.code_yields (p : Program) (text : Text) (d : Direction) (r : Nat) (c : Choice) :
    p.CodeYields text d r (r + c.registers) (c.code d r) (c.outcomes p.flags text d) := by
  match c with
  | .one b => exact b.code_yields p text d r
  | .more b rest =>
    exact Program.codeYields_choice
      ((b.code_yields p text d r).mono (Nat.le_refl r) (by simp only [Choice.registers]; omega))
      ((rest.code_yields p text d (r + b.registers)).mono (by omega)
        (by simp only [Choice.registers]; omega))

end

end UnitRegex
