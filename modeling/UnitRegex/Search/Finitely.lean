/-!
Properties that finitely many values have.
-/

namespace UnitRegex

/-- There are finitely many values with a property. -/
def Finitely {α : Type} (P : α → Prop) : Prop := ∃ l : List α, ∀ a, P a → a ∈ l

namespace Finitely

variable {α β : Type} {P Q : α → Prop}

theorem mono (hQ : Finitely Q) (h : ∀ a, P a → Q a) : Finitely P :=
  hQ.imp fun _ hl a ha => hl a (h a ha)

theorem lt (n : Nat) : Finitely fun k : Nat => k < n := ⟨List.range n, fun _ => List.mem_range.mpr⟩

theorem bool : Finitely fun _ : Bool => True := ⟨[false, true], fun b _ => by cases b <;> simp⟩

theorem image (hP : Finitely P) (f : α → β) : Finitely fun b => ∃ a, P a ∧ f a = b := by
  obtain ⟨l, hl⟩ := hP
  refine ⟨l.map f, ?_⟩
  rintro _ ⟨a, ha, rfl⟩
  exact List.mem_map_of_mem (hl a ha)

theorem prod {P : α → Prop} {Q : β → Prop} (hP : Finitely P) (hQ : Finitely Q) :
    Finitely fun ab : α × β => P ab.1 ∧ Q ab.2 := by
  obtain ⟨l, hl⟩ := hP
  obtain ⟨m, hm⟩ := hQ
  refine ⟨l.flatMap fun a => m.map (a, ·), ?_⟩
  rintro ⟨a, b⟩ ⟨ha, hb⟩
  exact List.mem_flatMap.mpr ⟨a, hl a ha, List.mem_map_of_mem (hm b hb)⟩

/-- There are finitely many short lists of such values. -/
theorem lists (hP : Finitely P) (n : Nat) :
    Finitely fun l : List α => l.length ≤ n ∧ ∀ a ∈ l, P a := by
  induction n with
  | zero => exact ⟨[[]], fun l hl => by simp [List.length_eq_zero_iff.mp (Nat.le_zero.mp hl.1)]⟩
  | succ n ih =>
    obtain ⟨ls, hls⟩ := (hP.prod ih).image fun al => al.1 :: al.2
    refine ⟨[] :: ls, ?_⟩
    rintro (_ | ⟨a, l⟩) ⟨hlength, hl⟩
    · exact List.mem_cons_self
    · refine List.mem_cons_of_mem _ (hls _ ⟨(a, l), ⟨hl a (by simp), ?_, ?_⟩, rfl⟩)
      · simpa using hlength
      · exact fun b hb => hl b (by simp [hb])

end Finitely

/-- A mark that is set leaves fewer to set. -/
theorem countP_lt_countP {α : Type} {p q : α → Bool} {l : List α} (h : ∀ a ∈ l, p a → q a) {a : α}
    (ha : a ∈ l) (hp : p a = false) (hq : q a = true) : l.countP p < l.countP q := by
  induction l with
  | nil => simp at ha
  | cons b l ih =>
    have hl : ∀ c ∈ l, p c → q c := fun c hc => h c (by simp [hc])
    rw [List.countP_cons, List.countP_cons]
    rcases List.mem_cons.mp ha with rfl | ha
    · rw [hp, hq]
      exact Nat.lt_succ_of_le (List.countP_mono_left hl)
    · have hlt := ih hl ha
      cases hpb : p b with
      | false =>
        rw [if_neg Bool.false_ne_true]
        exact Nat.lt_of_lt_of_le hlt (Nat.le_add_right _ _)
      | true =>
        rw [h b (by simp) hpb]
        exact Nat.add_lt_add_right hlt 1

end UnitRegex
