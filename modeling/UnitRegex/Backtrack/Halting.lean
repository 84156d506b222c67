import UnitRegex.Backtrack.Machine

/-!
Every run of the code of a pattern ends. A piece of code halts if all that can happen in it ends as
soon as all that can happen behind it does. This holds of loops because an iteration past the
minimum has to move.
-/

namespace UnitRegex

/-- Number of units that can still be read in a direction. -/
def Text.left (text : Text) (d : Direction) (cursor : Nat) : Nat :=
  match d with
  | .forward => text.size - cursor
  | .backward => cursor

/-- Whether a cursor stayed where it was or moved in a direction. -/
def Text.Moves (text : Text) (d : Direction) (before after : Nat) : Prop :=
  after = before ∨ text.left d after < text.left d before

namespace Text

theorem Moves.trans {text : Text} {d : Direction} {a b c : Nat} (h : text.Moves d a b)
    (h' : text.Moves d b c) : text.Moves d a c := by
  unfold Moves at *
  rcases h with rfl | h
  · exact h'
  · rcases h' with rfl | h'
    · exact .inr h
    · exact .inr (by omega)

theorem Moves.left_le {text : Text} {d : Direction} {a b : Nat} (h : text.Moves d a b) :
    text.left d b ≤ text.left d a := by
  rcases h with rfl | h
  · exact Nat.le_refl _
  · exact Nat.le_of_lt h

/-- A cursor is where it was exactly if as much is left. -/
theorem Moves.eq_iff {text : Text} {d : Direction} {a b : Nat} (h : text.Moves d a b) :
    b = a ↔ text.left d a ≤ text.left d b := by
  rcases h with rfl | h
  · simp
  · constructor
    · rintro rfl
      exact Nat.le_refl _
    · omega

theorem moves_of_read {text : Text} {d : Direction} {cursor next : Nat} {c : CodeUnit}
    (h : text.read cursor d = some (c, next)) : text.Moves d cursor next := by
  cases d with
  | forward =>
    simp only [read] at h
    obtain ⟨_, hget, he⟩ := Option.map_eq_some_iff.mp h
    obtain ⟨hlt, -⟩ := Array.getElem?_eq_some_iff.mp hget
    obtain ⟨-, rfl⟩ := Prod.mk.inj he
    exact .inr (by simp only [left]; omega)
  | backward =>
    simp only [read] at h
    split at h
    · simp at h
    · obtain ⟨_, -, he⟩ := Option.map_eq_some_iff.mp h
      obtain ⟨-, rfl⟩ := Prod.mk.inj he
      exact .inr (by simp only [left]; omega)

theorem moves_of_readGroup {text : Text} {flags : Flags} {slots : Slots} {d : Direction}
    {group cursor next : Nat} (h : text.readGroup flags slots group cursor d = some next) :
    text.Moves d cursor next := by
  simp only [readGroup] at h
  split at h
  · exact .inl (Option.some.inj h).symm
  · cases d with
    | forward =>
      simp only [Option.ite_none_right_eq_some, Option.some.injEq] at h
      obtain ⟨⟨hle, -⟩, rfl⟩ := h
      simp only [Moves, left]
      omega
    | backward =>
      simp only [Option.ite_none_right_eq_some, Option.some.injEq] at h
      obtain ⟨⟨hle, -⟩, rfl⟩ := h
      simp only [Moves, left]
      omega

end Text

/-- A piece of code stands in an array from an index on. -/
def Code.At (code : Array Instruction) (start : Nat) (piece : Code) : Prop :=
  ∀ i < piece.length, code[start + i]? = piece[i]?

namespace Code

theorem At.head {code : Array Instruction} {start : Nat} {i : Instruction} {piece : Code}
    (h : At code start (i :: piece)) : code[start]? = some i := by
  simpa using h 0 (by simp)

theorem At.tail {code : Array Instruction} {start : Nat} {i : Instruction} {piece : Code}
    (h : At code start (i :: piece)) : At code (start + 1) piece := fun j hj => by
  have := h (j + 1) (by simpa using hj)
  rwa [List.getElem?_cons_succ, ← Nat.add_assoc, Nat.add_right_comm] at this

theorem At.left {code : Array Instruction} {start : Nat} {a b : Code}
    (h : At code start (a ++ b)) : At code start a := fun j hj => by
  have := h j (by simp; omega)
  rwa [List.getElem?_append_left hj] at this

theorem At.right {code : Array Instruction} {start : Nat} {a b : Code}
    (h : At code start (a ++ b)) : At code (start + a.length) b := fun j hj => by
  have := h (a.length + j) (by simp; omega)
  rwa [List.getElem?_append_right (by omega), Nat.add_sub_cancel_left, ← Nat.add_assoc] at this

end Code

/-- What a piece of code that owns the registers from `lo` up to `hi` may do to a snapshot. -/
structure Keeps (text : Text) (d : Direction) (lo hi : Nat) (s t : Snapshot) : Prop where
  moves : text.Moves d s.cursor t.cursor
  size : t.registers.size = s.registers.size
  others : ∀ r, r < lo ∨ hi ≤ r → t.register r = s.register r

namespace Keeps

variable {text : Text} {d : Direction} {lo hi : Nat}

theorem of_eq {s t : Snapshot} (hc : t.cursor = s.cursor) (hr : t.registers = s.registers) :
    Keeps text d lo hi s t :=
  ⟨.inl hc, by rw [hr], fun r _ => by simp [Snapshot.register, hr]⟩

theorem trans {s t u : Snapshot} (h : Keeps text d lo hi s t) (h' : Keeps text d lo hi t u) :
    Keeps text d lo hi s u :=
  ⟨h.moves.trans h'.moves, h'.size.trans h.size,
    fun r hr => (h'.others r hr).trans (h.others r hr)⟩

theorem mono {lo' hi' : Nat} {s t : Snapshot} (h : Keeps text d lo' hi' s t) (hlo : lo ≤ lo')
    (hhi : hi' ≤ hi) : Keeps text d lo hi s t :=
  ⟨h.moves, h.size, fun r hr => h.others r (by omega)⟩

end Keeps

theorem Snapshot.register_setRegister (s : Snapshot) {r : Nat} (v : Nat)
    (h : r < s.registers.size) : (s.setRegister r v).register r = v := by
  simp [register, setRegister, h]

theorem Snapshot.register_setRegister_of_ne (s : Snapshot) {r q : Nat} (v : Nat) (h : r ≠ q) :
    (s.setRegister r v).register q = s.register q := by
  simp [register, setRegister, Array.getElem?_setIfInBounds_ne h]

theorem Keeps.setRegister {text : Text} {d : Direction} {lo hi r : Nat} {s t : Snapshot}
    {v : Nat} (hlo : lo ≤ r) (hhi : r < hi) (hc : t.cursor = s.cursor)
    (hr : t.registers = (s.setRegister r v).registers) : Keeps text d lo hi s t := by
  refine ⟨.inl hc, by simp [hr, Snapshot.setRegister], fun q hq => ?_⟩
  have := s.register_setRegister_of_ne (r := r) (q := q) v (by omega)
  simpa only [Snapshot.register, hr] using this

namespace Program

/-- A piece of code with the registers from `lo` up to `hi` ends wherever it is placed. -/
def CodeHalts (p : Program) (text : Text) (d : Direction) (lo hi : Nat) (c : Code) : Prop :=
  ∀ s : Snapshot, Code.At p.code s.pc c → hi ≤ s.registers.size →
    (∀ t : Snapshot, t.pc = s.pc + c.length → Keeps text d lo hi s t → p.Halts text t) →
    p.Halts text s

variable {p : Program} {text : Text} {d : Direction} {lo hi : Nat}

theorem step_eq {s : Snapshot} {i : Instruction} (h : p.code[s.pc]? = some i) :
    p.step text s = p.execute text s i := by
  simp [step, h]

theorem halts_of_next {s : Snapshot} {i : Instruction} {ways : List Snapshot}
    (h : p.code[s.pc]? = some i) (hi : p.execute text s i = .next ways)
    (hways : ∀ t ∈ ways, p.Halts text t) : p.Halts text s :=
  ⟨s, fun t ht => hways t (by simpa [Leads, step_eq h, hi] using ht)⟩

theorem codeHalts_nil : CodeHalts p text d lo hi [] := fun s _ _ h =>
  h s rfl (.of_eq rfl rfl)

theorem CodeHalts.mono {lo' hi' : Nat} {c : Code} (h : CodeHalts p text d lo' hi' c)
    (hlo : lo ≤ lo') (hhi : hi' ≤ hi) : CodeHalts p text d lo hi c := fun s hat hs hk =>
  h s hat (by omega) fun t ht hst => hk t ht (hst.mono hlo hhi)

theorem CodeHalts.append {a b : Code} (ha : CodeHalts p text d lo hi a)
    (hb : CodeHalts p text d lo hi b) : CodeHalts p text d lo hi (a ++ b) := fun s hat hs hk =>
  ha s hat.left hs fun t ht hst =>
    hb t (ht ▸ hat.right) (by rw [hst.size]; exact hs) fun u hu htu =>
      hk u (by rw [hu, ht, List.length_append, Nat.add_assoc]) (hst.trans htu)

/-- An instruction that only goes on to the next one. -/
theorem codeHalts_single {i : Instruction}
    (h : ∀ s, ∃ ways, p.execute text s i = .next ways ∧
      ∀ t ∈ ways, t.pc = s.pc + 1 ∧ Keeps text d lo hi s t) :
    CodeHalts p text d lo hi [i] := fun s hat _ hk => by
  obtain ⟨ways, hexec, hways⟩ := h s
  exact halts_of_next hat.head hexec fun t ht => hk t (hways t ht).1 (hways t ht).2

theorem CodeHalts.cons {i : Instruction} {c : Code} (hi' : CodeHalts p text d lo hi [i])
    (hc : CodeHalts p text d lo hi c) : CodeHalts p text d lo hi (i :: c) :=
  hi'.append hc

theorem codeHalts_read (set : CharSet) : CodeHalts p text d lo hi [.read set d] := by
  refine codeHalts_single fun s => ?_
  simp only [execute]
  split
  · rename_i c cursor hread
    refine ⟨_, rfl, fun t ht => ?_⟩
    split at ht
    · obtain rfl := List.mem_singleton.mp ht
      exact ⟨rfl, Text.moves_of_read hread, rfl, fun _ _ => rfl⟩
    · simp at ht
  · exact ⟨[], rfl, by simp⟩

theorem codeHalts_anchor (kind : Anchor) : CodeHalts p text d lo hi [.anchor kind] := by
  refine codeHalts_single fun s => ⟨_, rfl, fun t ht => ?_⟩
  split at ht
  · obtain rfl := List.mem_singleton.mp ht
    exact ⟨rfl, .of_eq rfl rfl⟩
  · simp at ht

theorem codeHalts_backReference (group : Nat) :
    CodeHalts p text d lo hi [.backReference group d] := by
  refine codeHalts_single fun s => ?_
  simp only [execute]
  split
  · rename_i cursor hread
    refine ⟨_, rfl, fun t ht => ?_⟩
    obtain rfl := List.mem_singleton.mp ht
    exact ⟨rfl, Text.moves_of_readGroup hread, rfl, fun _ _ => rfl⟩
  · exact ⟨[], rfl, by simp⟩

theorem codeHalts_mark {r : Nat} (hlo : lo ≤ r) (hhi : r < hi) :
    CodeHalts p text d lo hi [.mark r] := by
  refine codeHalts_single fun s => ⟨_, rfl, fun t ht => ?_⟩
  obtain rfl := List.mem_singleton.mp ht
  exact ⟨rfl, .setRegister hlo hhi rfl rfl⟩

theorem codeHalts_capture (group r : Nat) (e : Direction) :
    CodeHalts p text d lo hi [.capture group r e] := by
  refine codeHalts_single fun s => ?_
  cases e <;>
  · refine ⟨_, rfl, fun t ht => ?_⟩
    obtain rfl := List.mem_singleton.mp ht
    exact ⟨rfl, .of_eq rfl rfl⟩

theorem codeHalts_clear (range : Option (Nat × Nat)) :
    CodeHalts p text d lo hi (.clear range) := by
  match range with
  | none => exact codeHalts_nil
  | some (a, b) =>
    refine codeHalts_single fun s => ⟨_, rfl, fun t ht => ?_⟩
    obtain rfl := List.mem_singleton.mp ht
    exact ⟨rfl, .of_eq rfl rfl⟩

theorem codeHalts_pass {r : Nat} {capture : Option Nat} {body : Code} (hlo : lo ≤ r)
    (hhi : r < hi) (h : CodeHalts p text d lo hi body) :
    CodeHalts p text d lo hi (.pass d r capture body) := by
  cases capture with
  | none => exact h
  | some group => exact (codeHalts_mark hlo hhi).cons (h.append (codeHalts_capture group r d))

theorem codeHalts_choice {a b : Code} (ha : CodeHalts p text d lo hi a)
    (hb : CodeHalts p text d lo hi b) : CodeHalts p text d lo hi (.choice a b) := by
  intro s hat hs hk
  have hlen : (Code.choice a b).length = a.length + b.length + 2 := by
    simp [Code.choice]; omega
  have hrest : Code.At p.code (s.pc + 1 + a.length) (.jump (b.length + 1) :: b) :=
    hat.tail.right
  have hnext : Keeps text d lo hi s (s.jump 1) := .of_eq rfl rfl
  refine halts_of_next hat.head rfl fun t ht => ?_
  rcases List.mem_cons.mp ht with rfl | ht
  · refine ha _ hat.tail.left hs fun u hu hsu => ?_
    have hu : u.pc = s.pc + 1 + a.length := hu
    refine halts_of_next (hu ▸ hrest.head) rfl fun v hv => ?_
    obtain rfl := List.mem_singleton.mp hv
    exact hk _ (by simp only [Snapshot.jump]; omega)
      (hnext.trans (hsu.trans (.of_eq rfl rfl)))
  · obtain rfl := List.mem_singleton.mp ht
    refine hb _ ?_ hs fun u hu hsu => ?_
    · have := hrest.tail
      rwa [show s.pc + 1 + a.length + 1 = s.pc + (a.length + 2) by omega] at this
    · exact hk u (by simp only [Snapshot.jump] at hu; omega) ⟨hsu.moves, hsu.size, hsu.others⟩

theorem codeHalts_look {e : Direction} {negated : Bool} {body : Code}
    (h : CodeHalts p text e lo hi body) : CodeHalts p text d lo hi (.look negated body) := by
  intro s hat hs hk
  have hlen : (Code.look negated body).length = body.length + 2 := by simp [Code.look]
  have hstep : p.step text s = .look negated (body.length + 2) := step_eq hat.head
  refine ⟨s, fun t ht => ?_⟩
  simp only [Leads, hstep] at ht
  rcases ht with rfl | ⟨slots, rfl⟩
  · refine h _ hat.tail.left hs fun u hu _ => ?_
    have hget : p.code[u.pc]? = some .accept := by
      rw [hu]
      exact hat.tail.right.head
    exact ⟨u, fun v hv => by simp [Leads, step_eq hget, execute] at hv⟩
  · exact hk _ (by simp only [Snapshot.jump]; omega) (.of_eq rfl rfl)

theorem codeHalts_loop {q : Quantifier} {body : Code} (hhi : lo + 2 ≤ hi)
    (h : CodeHalts p text d (lo + 2) hi body) : CodeHalts p text d lo hi (.loop lo q body) := by
  intro s hat hs hk
  have hlen : (Code.loop lo q body).length = body.length + 4 := by simp [Code.loop]
  have hhead := hat.tail
  have hbody : Code.At p.code (s.pc + 3)
      (body ++ [.loopNext lo (lo + 1) q.min (body.length + 2)]) := hhead.tail.tail
  have again : ∀ n t, t.pc = s.pc + 1 → Keeps text d lo hi s t →
      q.min - t.register lo + text.left d t.cursor < n → p.Halts text t := by
    intro n
    induction n with
    | zero => exact fun _ _ _ hn => absurd hn (Nat.not_lt_zero _)
    | succ n ih =>
      intro t ht hst hn
      have hsize : lo + 2 ≤ t.registers.size := by rw [hst.size]; omega
      have hexit : p.Halts text (t.jump (body.length + 3)) :=
        hk _ (by simp only [Snapshot.jump]; omega) (hst.trans (.of_eq rfl rfl))
      have henter : p.Halts text (t.jump 1) := by
        have hmark : p.code[(t.jump 1).pc]? = some (.mark (lo + 1)) := by
          rw [Snapshot.jump, ht]
          exact hhead.tail.head
        refine halts_of_next hmark rfl fun u hu => ?_
        obtain rfl := List.mem_singleton.mp hu
        generalize hu : ((t.jump 1).setRegister (lo + 1) (t.jump 1).cursor).jump 1 = u
        have hupc : u.pc = s.pc + 3 := by
          rw [← hu]
          simp only [Snapshot.jump, Snapshot.setRegister]
          omega
        have hmarked : u.register (lo + 1) = t.cursor := by
          rw [← hu]
          exact (t.jump 1).register_setRegister _ (by simp only [Snapshot.jump]; omega)
        have hcount : u.register lo = t.register lo := by
          rw [← hu]
          exact (t.jump 1).register_setRegister_of_ne _ (by omega)
        have htu : Keeps text d lo hi t u := by
          rw [← hu]
          exact .setRegister (r := lo + 1) (v := t.cursor) (by omega) (by omega) rfl rfl
        have hcursor : u.cursor = t.cursor := by rw [← hu]; rfl
        refine h u (hupc ▸ hbody.left) (by rw [htu.size, hst.size]; exact hs) fun v hv huv => ?_
        have hvcount : v.register lo = t.register lo := by
          rw [huv.others lo (by omega), hcount]
        have hvmark : v.register (lo + 1) = t.cursor := by
          rw [huv.others (lo + 1) (by omega), hmarked]
        have hget : p.code[v.pc]? = some (.loopNext lo (lo + 1) q.min (body.length + 2)) := by
          rw [hv, hupc]
          exact hbody.right.head
        have hsv : Keeps text d lo hi s v :=
          (hst.trans htu).trans (huv.mono (by omega) (Nat.le_refl _))
        by_cases hempty : q.min ≤ v.register lo ∧ v.cursor = v.register (lo + 1)
        · refine halts_of_next hget (by simp only [execute, if_pos hempty]; rfl) fun w hw => ?_
          simp at hw
        · refine halts_of_next hget (by simp only [execute, if_neg hempty]; rfl) fun w hw => ?_
          obtain rfl := List.mem_singleton.mp hw
          refine ih _ (by simp only; omega)
            (hsv.trans (.setRegister (r := lo) (v := v.register lo + 1) (by omega) (by omega)
              rfl rfl)) ?_
          have hset : (v.setRegister lo (v.register lo + 1)).register lo = v.register lo + 1 :=
            v.register_setRegister _ (by rw [huv.size, htu.size]; omega)
          have hmoves := huv.moves
          rw [hcursor] at hmoves
          have hle := hmoves.left_le
          simp only [Snapshot.register, Snapshot.setRegister] at hset hvcount hvmark hempty hn ⊢
          rw [hset, hvcount]
          rcases hmoves with hsame | hless
          · omega
          · omega
      have hget : p.code[t.pc]? = some (.loopHead lo q (body.length + 3)) := ht ▸ hhead.head
      by_cases hmin : t.register lo < q.min
      · refine halts_of_next hget (by simp only [execute, if_pos hmin]; rfl) fun u hu => ?_
        obtain rfl := List.mem_singleton.mp hu
        exact henter
      · by_cases hmax : q.max.any (· ≤ t.register lo)
        · refine halts_of_next hget (by simp only [execute, if_neg hmin, if_pos hmax]; rfl)
            fun u hu => ?_
          obtain rfl := List.mem_singleton.mp hu
          exact hexit
        · refine halts_of_next hget (by simp only [execute, if_neg hmin, if_neg hmax]; rfl)
            fun u hu => ?_
          split at hu
          · simp only [List.mem_cons, List.not_mem_nil, or_false] at hu
            rcases hu with rfl | rfl
            · exact henter
            · exact hexit
          · simp only [List.mem_cons, List.not_mem_nil, or_false] at hu
            rcases hu with rfl | rfl
            · exact hexit
            · exact henter
  refine halts_of_next hat.head rfl fun t ht => ?_
  obtain rfl := List.mem_singleton.mp ht
  exact again _ _ rfl (.setRegister (r := lo) (v := 0) (by omega) (by omega) rfl rfl)
    (Nat.lt_succ_self _)

end Program

mutual

theorem Term.code_halts (p : Program) (text : Text) (d : Direction) (r : Nat) (t : Term) :
    p.CodeHalts text d r (r + t.registers) (t.code d r) := by
  match t with
  | .unit set => exact Program.codeHalts_read set
  | .anchor kind => exact Program.codeHalts_anchor kind
  | .backReference group => exact Program.codeHalts_backReference group
  | .look behind negated body => exact Program.codeHalts_look (body.code_halts p text _ r)
  | .group capture none body =>
    exact Program.codeHalts_pass (Nat.le_refl r) (by simp only [Term.registers]; omega)
      ((body.code_halts p text d (r + 1)).mono (by omega) (by simp only [Term.registers]; omega))
  | .group capture (some q) body =>
    refine Program.codeHalts_loop (by simp only [Term.registers]; omega)
      ((Program.codeHalts_clear _).append (Program.codeHalts_pass (Nat.le_refl _) ?_ ?_))
    · simp only [Term.registers]; omega
    · exact (body.code_halts p text d (r + 3)).mono (by omega)
        (by simp only [Term.registers]; omega)

theorem Branch.code_halts (p : Program) (text : Text) (d : Direction) (r : Nat) (b : Branch) :
    p.CodeHalts text d r (r + b.registers) (b.code d r) := by
  match b with
  | .nil => exact Program.codeHalts_nil
  | .cons t rest =>
    have ht : p.CodeHalts text d r (r + (t.registers + rest.registers)) (t.code d r) :=
      (t.code_halts p text d r).mono (Nat.le_refl r) (by omega)
    have hrest : p.CodeHalts text d r (r + (t.registers + rest.registers))
        (rest.code d (r + t.registers)) :=
      (rest.code_halts p text d (r + t.registers)).mono (by omega) (by omega)
    cases d with
    | forward => exact ht.append hrest
    | backward => exact hrest.append ht

theorem Choice.code_halts (p : Program) (text : Text) (d : Direction) (r : Nat) (c : Choice) :
    p.CodeHalts text d r (r + c.registers) (c.code d r) := by
  match c with
  | .one b => exact b.code_halts p text d r
  | .more b rest =>
    exact Program.codeHalts_choice
      ((b.code_halts p text d r).mono (Nat.le_refl r) (by simp only [Choice.registers]; omega))
      ((rest.code_halts p text d (r + b.registers)).mono (by omega)
        (by simp only [Choice.registers]; omega))

end

end UnitRegex
