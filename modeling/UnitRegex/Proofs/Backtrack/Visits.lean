import UnitRegex.Proofs.Matching.Inside

/-!
What the backtracking machine looks at on its way. Every snapshot that a run comes by, in front of a
back-reference or anywhere else and also within a look-around, has its position and all its captures
in the text.
-/

namespace UnitRegex

namespace Program

variable {p : Program} {text : Text} {d : Direction} {lo hi groupCount : Nat}

/-- A run from one snapshot may come by another. The code of a look-around is run by itself, and the
run goes on behind it with the captures that were left. -/
inductive Visits (p : Program) (text : Text) : Snapshot → Snapshot → Prop
  | here (s : Snapshot) : Visits p text s s
  | next {s t u : Snapshot} {ways : List Snapshot} (hstep : p.step text s = .next ways)
    (ht : t ∈ ways) (h : Visits p text t u) : Visits p text s u
  | into {s u : Snapshot} {negated : Bool} {offset : Nat}
    (hstep : p.step text s = .look negated offset) (h : Visits p text (s.jump 1) u) :
    Visits p text s u
  | behind {s u : Snapshot} {negated : Bool} {offset : Nat} {found : Option Snapshot}
    (hstep : p.step text s = .look negated offset) (hlook : p.Runs text [s.jump 1] found)
    (h : Visits p text { s.jump offset with slots := (found.map (·.slots)).getD s.slots } u) :
    Visits p text s u

/-- The snapshot that accepts was visited from one on the stack. -/
theorem Runs.exists_visits {stack : List Snapshot} {u : Snapshot}
    (h : p.Runs text stack (some u)) : ∃ s ∈ stack, p.Visits text s u := by
  generalize hr : some u = r at h
  induction h with
  | nil => cases hr
  | accept _ =>
    obtain rfl := Option.some.inj hr
    exact ⟨_, List.mem_cons_self, .here _⟩
  | next hstep _ ih =>
    obtain ⟨t, ht, hvisits⟩ := ih hr
    rcases List.mem_append.mp ht with ht | ht
    · exact ⟨_, List.mem_cons_self, .next hstep ht hvisits⟩
    · exact ⟨t, List.mem_cons_of_mem _ ht, hvisits⟩
  | fail _ _ _ _ _ ih =>
    obtain ⟨t, ht, hvisits⟩ := ih hr
    exact ⟨t, List.mem_cons_of_mem _ ht, hvisits⟩
  | pass hstep hlook _ _ _ ih =>
    obtain ⟨t, ht, hvisits⟩ := ih hr
    rcases List.mem_cons.mp ht with rfl | ht
    · exact ⟨_, List.mem_cons_self, .behind hstep hlook hvisits⟩
    · exact ⟨t, List.mem_cons_of_mem _ ht, hvisits⟩

/-- Everything that a run from a snapshot comes by lies in the text. -/
def Safe (p : Program) (text : Text) (groupCount : Nat) (s : Snapshot) : Prop :=
  ∀ t, p.Visits text s t → t.matchState.InText text groupCount

theorem safe_of_accept {s : Snapshot} (hin : s.matchState.InText text groupCount)
    (h : p.step text s = .accept) : p.Safe text groupCount s := by
  intro t ht
  cases ht with
  | here => exact hin
  | next hstep => cases h.symm.trans hstep
  | into hstep => cases h.symm.trans hstep
  | behind hstep => cases h.symm.trans hstep

theorem safe_of_next {s : Snapshot} {ways : List Snapshot}
    (hin : s.matchState.InText text groupCount) (h : p.step text s = .next ways)
    (hways : ∀ t ∈ ways, p.Safe text groupCount t) : p.Safe text groupCount s := by
  intro u hu
  cases hu with
  | here => exact hin
  | next hstep ht hvisits =>
    obtain rfl := Step.next.inj (h.symm.trans hstep)
    exact hways _ ht u hvisits
  | into hstep => cases h.symm.trans hstep
  | behind hstep => cases h.symm.trans hstep

theorem safe_of_look {s : Snapshot} {negated : Bool} {offset : Nat}
    (hin : s.matchState.InText text groupCount) (h : p.step text s = .look negated offset)
    (hinto : p.Safe text groupCount (s.jump 1))
    (hbehind : ∀ slots : Slots, slots.Within text.size groupCount →
      p.Safe text groupCount { s.jump offset with slots := slots }) :
    p.Safe text groupCount s := by
  intro u hu
  cases hu with
  | here => exact hin
  | next hstep => cases h.symm.trans hstep
  | into hstep hvisits => exact hinto u hvisits
  | @behind _ _ _ _ found hstep hlook hvisits =>
    obtain ⟨-, rfl⟩ := Step.look.inj (h.symm.trans hstep)
    refine hbehind _ ?_ u hvisits
    cases found with
    | none => exact hin.slots
    | some y =>
      -- The look-around accepts at a snapshot that it came by.
      obtain ⟨t, ht, hvisits⟩ := hlook.exists_visits
      obtain rfl := List.mem_singleton.mp ht
      exact (hinto y hvisits).slots

/-- A piece of code with the registers from `lo` up to `hi` is safe wherever it is placed, if what
stands behind it is. -/
def CodeSafe (p : Program) (text : Text) (groupCount : Nat) (d : Direction) (lo hi : Nat)
    (c : Code) : Prop :=
  ∀ s : Snapshot, Code.At p.code s.pc c → hi ≤ s.registers.size →
    s.matchState.InText text groupCount →
    (∀ t : Snapshot, t.pc = s.pc + c.length → Keeps text d lo hi s t →
      t.matchState.InText text groupCount → p.Safe text groupCount t) →
    p.Safe text groupCount s

theorem codeSafe_nil : p.CodeSafe text groupCount d lo hi [] := by
  intro s _ _ hin hk
  exact hk s rfl (.of_eq rfl rfl) hin

theorem CodeSafe.mono {lo' hi' : Nat} {c : Code} (h : p.CodeSafe text groupCount d lo' hi' c)
    (hlo : lo ≤ lo') (hhi : hi' ≤ hi) : p.CodeSafe text groupCount d lo hi c := by
  intro s hat hs hin hk
  exact h s hat (by omega) hin fun t ht hst => hk t ht (hst.mono hlo hhi)

theorem CodeSafe.append {a b : Code} (ha : p.CodeSafe text groupCount d lo hi a)
    (hb : p.CodeSafe text groupCount d lo hi b) :
    p.CodeSafe text groupCount d lo hi (a ++ b) := by
  intro s hat hs hin hk
  apply ha s hat.left hs hin
  intro t ht hst htin
  apply hb t (ht ▸ hat.right) (by rw [hst.size]; exact hs) htin
  intro u hu htu
  exact hk u (by rw [hu, ht, List.length_append, Nat.add_assoc]) (hst.trans htu)

/-- An instruction that only goes on to the next one. -/
theorem codeSafe_single {i : Instruction}
    (h : ∀ s, ∃ ways, p.execute text s i = .next ways ∧
      ∀ t ∈ ways, t.pc = s.pc + 1 ∧ Keeps text d lo hi s t ∧
        (s.matchState.InText text groupCount → t.matchState.InText text groupCount)) :
    p.CodeSafe text groupCount d lo hi [i] := by
  intro s hat _ hin hk
  obtain ⟨ways, hexec, hways⟩ := h s
  apply safe_of_next hin ((step_eq hat.head).trans hexec)
  intro t ht
  obtain ⟨hpc, hst, htin⟩ := hways t ht
  exact hk t hpc hst (htin hin)

theorem codeSafe_read (set : CharSet) : p.CodeSafe text groupCount d lo hi [.read set d] := by
  apply codeSafe_single
  intro s
  simp only [execute]
  split
  · rename_i c cursor hread
    refine ⟨_, rfl, fun t ht => ?_⟩
    split at ht
    · obtain rfl := List.mem_singleton.mp ht
      exact ⟨rfl, ⟨Text.moves_of_read hread, rfl, fun _ _ => rfl⟩,
        fun hin => ⟨Text.le_size_of_read hread, hin.slots⟩⟩
    · cases ht
  · exact ⟨[], rfl, by simp⟩

theorem codeSafe_anchor (kind : Anchor) : p.CodeSafe text groupCount d lo hi [.anchor kind] := by
  refine codeSafe_single fun s => ⟨_, rfl, fun t ht => ?_⟩
  split at ht
  · obtain rfl := List.mem_singleton.mp ht
    exact ⟨rfl, .of_eq rfl rfl, id⟩
  · cases ht

theorem codeSafe_backReference (group : Nat) :
    p.CodeSafe text groupCount d lo hi [.backReference group d] := by
  apply codeSafe_single
  intro s
  simp only [execute]
  split
  · rename_i cursor hread
    refine ⟨_, rfl, fun t ht => ?_⟩
    obtain rfl := List.mem_singleton.mp ht
    exact ⟨rfl, ⟨Text.moves_of_readGroup hread, rfl, fun _ _ => rfl⟩,
      fun hin => ⟨Text.le_size_of_readGroup hread hin.cursor_le, hin.slots⟩⟩
  · exact ⟨[], rfl, by simp⟩

theorem codeSafe_clear (span : Option (Nat × Nat)) :
    p.CodeSafe text groupCount d lo hi (.clear span) := by
  cases span with
  | none => exact codeSafe_nil
  | some range =>
    refine codeSafe_single fun s => ⟨_, rfl, fun t ht => ?_⟩
    obtain rfl := List.mem_singleton.mp ht
    exact ⟨rfl, .of_eq rfl rfl, fun hin => ⟨hin.cursor_le, hin.slots.unsetGroups _ _⟩⟩

variable (text d) in
/-- A mark keeps the position in its register. -/
theorem step_mark {s : Snapshot} {r : Nat} (hget : p.code[s.pc]? = some (.mark r))
    (hr : r < s.registers.size) :
    ∃ t, p.step text s = .next [t] ∧ t.pc = s.pc + 1 ∧ t.matchState = s.matchState ∧
      t.register r = s.cursor ∧ Keeps text d r (r + 1) s t := by
  refine ⟨_, step_eq hget, rfl, rfl, ?_, ?_⟩
  · exact s.register_setRegister _ hr
  · exact .setRegister (Nat.le_refl r) (Nat.lt_succ_self r) rfl rfl

variable (text) in
/-- The end of a group records what lies behind the position in its register. -/
theorem step_capture {s : Snapshot} {group r : Nat}
    (hget : p.code[s.pc]? = some (.capture group r d)) :
    ∃ t, p.step text s = .next [t] ∧ t.pc = s.pc + 1 ∧ t.registers = s.registers ∧
      t.matchState = s.matchState.recordAny d (some group) (s.register r) := by
  cases d <;> exact ⟨_, step_eq hget, rfl, rfl, rfl⟩

variable (text) in
/-- The head of a loop leads into the body or behind the loop. -/
theorem step_loopHead {s : Snapshot} {counter offset : Nat} {q : Quantifier}
    (hget : p.code[s.pc]? = some (.loopHead counter q offset)) :
    ∃ ways, p.step text s = .next ways ∧ ∀ t ∈ ways, t = s.jump 1 ∨ t = s.jump offset := by
  rw [step_eq hget]
  simp only [execute]
  split
  · exact ⟨_, rfl, by simp⟩
  · split
    · exact ⟨_, rfl, by simp⟩
    · refine ⟨_, rfl, fun t ht => ?_⟩
      split at ht
      · simpa using ht
      · simpa [or_comm] using ht

variable (text d) in
/-- An iteration ends in front of the next one, unless it had to move and did not. -/
theorem step_loopNext_back {s : Snapshot} {counter mark min offset : Nat}
    (hget : p.code[s.pc]? = some (.loopNext counter mark min offset))
    (hcounter : counter < s.registers.size) :
    ∃ ways, p.step text s = .next ways ∧ ∀ t ∈ ways,
      t.pc = s.pc - offset ∧ t.matchState = s.matchState ∧
        t.register counter = s.register counter + 1 ∧ Keeps text d counter (counter + 1) s t ∧
        (min ≤ s.register counter → s.cursor ≠ s.register mark) := by
  rw [step_eq hget]
  simp only [execute]
  split
  · exact ⟨[], rfl, by simp⟩
  · rename_i hmoved
    refine ⟨_, rfl, fun t ht => ?_⟩
    obtain rfl := List.mem_singleton.mp ht
    refine ⟨rfl, rfl, s.register_setRegister _ hcounter, ?_, ?_⟩
    · exact .setRegister (Nat.le_refl counter) (Nat.lt_succ_self counter) rfl rfl
    · exact fun hmin heq => hmoved ⟨hmin, heq⟩

/-- The register of a group keeps the position in front of it, which the body did not go past. -/
theorem codeSafe_pass {r : Nat} {capture : Option Nat} {body : Code} (hlo : lo ≤ r) (hhi : r < hi)
    (h : p.CodeSafe text groupCount d (r + 1) hi body) :
    p.CodeSafe text groupCount d lo hi (.pass d r capture body) := by
  cases capture with
  | none => exact h.mono (by omega) (Nat.le_refl hi)
  | some group =>
    intro s hat hs hin hk
    have hlen : (Code.pass d r (some group) body).length = body.length + 2 := by
      simp [Code.pass]
    obtain ⟨t, hstep, htpc, htview, htmark, hkeep⟩ :=
      step_mark text d hat.head (by omega)
    have hst : Keeps text d lo hi s t := hkeep.mono hlo hhi
    apply safe_of_next hin hstep
    intro t' ht'
    obtain rfl := List.mem_singleton.mp ht'
    apply h t' (htpc ▸ hat.tail.left) (by rw [hst.size]; exact hs) (htview ▸ hin)
    intro u hupc hkeep huin
    have humark : u.register r = s.cursor := by
      rw [hkeep.others r (by omega), htmark]
    have hsu : Keeps text d lo hi s u := hst.trans (hkeep.mono (by omega) (Nat.le_refl hi))
    have hget : p.code[u.pc]? = some (.capture group r d) := by
      rw [hupc, htpc]
      exact hat.tail.right.head
    obtain ⟨v, hstep, hvpc, hregisters, hvview⟩ := step_capture text hget
    have hcursor : v.cursor = u.cursor := by
      have hcursor := congrArg MatchState.cursor hvview
      rwa [MatchState.cursor_recordAny] at hcursor
    apply safe_of_next huin hstep
    intro v' hv'
    obtain rfl := List.mem_singleton.mp hv'
    apply hk v' (by omega) (hsu.trans (.of_eq hcursor hregisters))
    rw [hvview, humark]
    exact huin.recordAny (some group) hin.cursor_le hsu.moves.left_le

theorem codeSafe_choice {a b : Code} (ha : p.CodeSafe text groupCount d lo hi a)
    (hb : p.CodeSafe text groupCount d lo hi b) :
    p.CodeSafe text groupCount d lo hi (.choice a b) := by
  intro s hat hs hin hk
  have hlen : (Code.choice a b).length = a.length + b.length + 2 := by
    simp only [Code.choice, List.length_cons, List.length_append]
    omega
  have hrest : Code.At p.code (s.pc + 1 + a.length) (.jump (b.length + 1) :: b) := hat.tail.right
  have hnext : Keeps text d lo hi s (s.jump 1) := .of_eq rfl rfl
  have hfirst : p.Safe text groupCount (s.jump 1) := by
    apply ha (s.jump 1) hat.tail.left hs hin
    intro u hu hsu huin
    have hu : u.pc = s.pc + 1 + a.length := hu
    apply safe_of_next huin (step_eq (hu ▸ hrest.head))
    intro v hv
    obtain rfl := List.mem_singleton.mp hv
    exact hk _ (by simp only [Snapshot.jump]; omega) (hnext.trans (hsu.trans (.of_eq rfl rfl))) huin
  have hsecond : p.Safe text groupCount (s.jump (a.length + 2)) := by
    refine hb _ ?_ hs hin fun u hu hsu huin => ?_
    · have := hrest.tail
      rwa [show s.pc + 1 + a.length + 1 = s.pc + (a.length + 2) by omega] at this
    · exact hk u (by simp only [Snapshot.jump] at hu; omega) ⟨hsu.moves, hsu.size, hsu.others⟩ huin
  apply safe_of_next hin (step_eq hat.head)
  intro t ht
  rcases List.mem_cons.mp ht with rfl | ht
  · exact hfirst
  · obtain rfl := List.mem_singleton.mp ht
    exact hsecond

theorem codeSafe_look {e : Direction} {negated : Bool} {body : Code}
    (h : p.CodeSafe text groupCount e lo hi body) :
    p.CodeSafe text groupCount d lo hi (.look negated body) := by
  intro s hat hs hin hk
  have hlen : (Code.look negated body).length = body.length + 2 := by simp [Code.look]
  have hstep : p.step text s = .look negated (body.length + 2) := step_eq hat.head
  refine safe_of_look hin hstep ?_ fun slots hslots => ?_
  · apply h (s.jump 1) hat.tail.left hs hin
    intro u hu _ huin
    have hget : p.code[u.pc]? = some .accept := by
      rw [hu]
      exact hat.tail.right.head
    exact safe_of_accept huin (step_eq hget)
  · exact hk _ (by simp only [Snapshot.jump]; omega) (.of_eq rfl rfl) ⟨hin.cursor_le, hslots⟩

/-- One iteration of a loop ends in front of a safe snapshot or fails. -/
theorem safe_of_iteration {body : Code} {min : Nat} {t : Snapshot}
    (h : p.CodeSafe text groupCount d (lo + 2) hi body)
    (hat : Code.At p.code t.pc
      (.mark (lo + 1) :: (body ++ [.loopNext lo (lo + 1) min (body.length + 2)])))
    (hlo : lo + 2 ≤ hi) (hsize : hi ≤ t.registers.size) (hin : t.matchState.InText text groupCount)
    (hagain : ∀ w : Snapshot, w.pc + 1 = t.pc → Keeps text d lo hi t w →
      w.matchState.InText text groupCount → w.register lo = t.register lo + 1 →
      (min ≤ t.register lo → w.cursor ≠ t.cursor) → p.Safe text groupCount w) (hpc : 0 < t.pc) :
    p.Safe text groupCount t := by
  obtain ⟨u, hstep, hupc, huview, humark, hkeep⟩ :=
    step_mark text d hat.head (by omega)
  have htu : Keeps text d lo hi t u := hkeep.mono (by omega) (by omega)
  apply safe_of_next hin hstep
  intro u' hu'
  obtain rfl := List.mem_singleton.mp hu'
  apply h u' (hupc ▸ hat.tail.left) (by rw [htu.size]; exact hsize) (huview ▸ hin)
  intro v hvpc huv hvin
  have htv : Keeps text d lo hi t v := htu.trans (huv.mono (by omega) (Nat.le_refl hi))
  have hvcount : v.register lo = t.register lo := by
    rw [huv.others lo (by omega), hkeep.others lo (by omega)]
  have hvmark : v.register (lo + 1) = t.cursor := by
    rw [huv.others (lo + 1) (by omega), humark]
  have hget : p.code[v.pc]? = some (.loopNext lo (lo + 1) min (body.length + 2)) := by
    rw [hvpc, hupc]
    exact hat.tail.right.head
  obtain ⟨ways, hstep, hways⟩ :=
    step_loopNext_back text d hget (by rw [htv.size]; omega)
  apply safe_of_next hvin hstep
  intro w hw
  obtain ⟨hwpc, hwview, hwcount, hvw, hmoved⟩ := hways w hw
  have hcursor : w.cursor = v.cursor := congrArg MatchState.cursor hwview
  apply hagain w (by omega) (htv.trans (hvw.mono (Nat.le_refl lo) (by omega))) (hwview ▸ hvin)
  · rw [hwcount, hvcount]
  · rwa [hvcount, hvmark, ← hcursor] at hmoved

/-- A loop is safe, by induction on the iterations that are missing and on what is left of the
text. -/
theorem codeSafe_loop {q : Quantifier} {body : Code} (hhi : lo + 2 ≤ hi)
    (h : p.CodeSafe text groupCount d (lo + 2) hi body) :
    p.CodeSafe text groupCount d lo hi (.loop lo q body) := by
  intro s hat hs hin hk
  have hlen : (Code.loop lo q body).length = body.length + 4 := by simp [Code.loop]
  have again : ∀ n t, t.pc = s.pc + 1 → Keeps text d lo hi s t →
      t.matchState.InText text groupCount →
      q.min - t.register lo + text.left d t.cursor < n → p.Safe text groupCount t := by
    intro n
    induction n with
    | zero => exact fun _ _ _ _ hn => absurd hn (Nat.not_lt_zero _)
    | succ n ih =>
      intro t ht hst htin hn
      have hleave : p.Safe text groupCount (t.jump (body.length + 3)) :=
        hk _ (by simp only [Snapshot.jump]; omega) (hst.trans (.of_eq rfl rfl)) htin
      have henter : p.Safe text groupCount (t.jump 1) := by
        have hpc : (t.jump 1).pc = s.pc + 2 := by simp only [Snapshot.jump, ht]
        apply safe_of_iteration (t := t.jump 1) h (hpc ▸ hat.tail.tail) hhi (hst.size ▸ hs) htin
        · intro w hwpc htw hwin hcount hmoved
          have hmoves : text.Moves d t.cursor w.cursor := htw.moves
          have hle := hmoves.left_le
          have hcount : w.register lo = t.register lo + 1 := hcount
          apply ih w (by omega) (hst.trans ⟨htw.moves, htw.size, htw.others⟩) hwin
          rcases hmoves with hsame | hless
          · have hmin : ¬q.min ≤ t.register lo := fun hmin => hmoved hmin hsame
            omega
          · omega
        · rw [hpc]
          exact Nat.succ_pos _
      obtain ⟨ways, hstep, hways⟩ := step_loopHead text (ht ▸ hat.tail.head)
      apply safe_of_next htin hstep
      intro u hu
      rcases hways u hu with rfl | rfl
      · exact henter
      · exact hleave
  apply safe_of_next hin (step_eq hat.head)
  intro t ht
  obtain rfl := List.mem_singleton.mp ht
  exact again _ _ rfl (.setRegister (r := lo) (v := 0) (by omega) (by omega) rfl rfl) hin
    (Nat.lt_succ_self _)

end Program

mutual

theorem Term.code_safe (p : Program) (text : Text) (groupCount : Nat) (d : Direction) (r : Nat)
    (t : Term) : p.CodeSafe text groupCount d r (r + t.registers) (t.code d r) := by
  match t with
  | .unit set => exact Program.codeSafe_read set
  | .anchor kind => exact Program.codeSafe_anchor kind
  | .backReference group => exact Program.codeSafe_backReference group
  | .look behind negated body =>
    exact Program.codeSafe_look (body.code_safe p text groupCount _ r)
  | .group capture none body =>
    exact Program.codeSafe_pass (Nat.le_refl r) (by simp only [Term.registers]; omega)
      ((body.code_safe p text groupCount d (r + 1)).mono (Nat.le_refl _)
        (by simp only [Term.registers]; omega))
  | .group capture (some q) body =>
    have hregisters : (Term.group capture (some q) body).registers = body.registers + 3 := rfl
    have hbody : p.CodeSafe text groupCount d (r + 2 + 1) (r + (body.registers + 3))
        (body.code d (r + 3)) :=
      (body.code_safe p text groupCount d (r + 3)).mono (Nat.le_refl _) (by omega)
    rw [hregisters]
    exact Program.codeSafe_loop (by omega) ((Program.codeSafe_clear _).append
      (Program.codeSafe_pass (Nat.le_refl _) (by omega) hbody))

theorem Branch.code_safe (p : Program) (text : Text) (groupCount : Nat) (d : Direction) (r : Nat)
    (b : Branch) : p.CodeSafe text groupCount d r (r + b.registers) (b.code d r) := by
  match b with
  | .nil => exact Program.codeSafe_nil
  | .cons t rest =>
    have ht : p.CodeSafe text groupCount d r (r + (t.registers + rest.registers)) (t.code d r) :=
      (t.code_safe p text groupCount d r).mono (Nat.le_refl r) (by omega)
    have hrest : p.CodeSafe text groupCount d r (r + (t.registers + rest.registers))
        (rest.code d (r + t.registers)) :=
      (rest.code_safe p text groupCount d (r + t.registers)).mono (by omega) (by omega)
    cases d with
    | forward => exact ht.append hrest
    | backward => exact hrest.append ht

theorem Choice.code_safe (p : Program) (text : Text) (groupCount : Nat) (d : Direction) (r : Nat)
    (c : Choice) : p.CodeSafe text groupCount d r (r + c.registers) (c.code d r) := by
  match c with
  | .one b => exact b.code_safe p text groupCount d r
  | .more b rest =>
    exact Program.codeSafe_choice
      ((b.code_safe p text groupCount d r).mono (Nat.le_refl r)
        (by simp only [Choice.registers]; omega))
      ((rest.code_safe p text groupCount d (r + b.registers)).mono (by omega)
        (by simp only [Choice.registers]; omega))

end

/-- Whatever a run of the program of a pattern comes by lies in the text. -/
theorem Pattern.inText_of_visits {p : Pattern} {text : Text} {i : Nat} (hi : i ≤ text.size)
    {t : Snapshot} (ht : p.program.Visits text (p.program.start i) t) :
    t.matchState.InText text p.groupCount := by
  have hat := p.program_code_at (s := p.program.start i) rfl
  have hregisters : 0 + p.root.registers ≤ (p.program.start i).registers.size := by
    simp [Program.start, program]
  refine p.root.code_safe p.program text p.groupCount .forward 0 _ hat.left hregisters
    ⟨hi, Slots.within_unset text.size p.groupCount⟩ (fun u hu _ huin => ?_) t ht
  exact Program.safe_of_accept huin (Program.step_eq (hu ▸ hat.right.head))

end UnitRegex
