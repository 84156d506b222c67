import UnitRegex.Proofs.Matching.Outcomes

/-!
Runs of the backtracking machine as derivations. A list of snapshots unfolds to a list of later ones
if it may be replaced by them in every run, whatever lies below it on the stack.
-/

namespace UnitRegex.Program

variable {p : Program} {text : Text}

/-- A stack runs to the snapshot that accepts first, or to nothing. -/
inductive Runs (p : Program) (text : Text) : List Snapshot → Option Snapshot → Prop
  | nil : Runs p text [] none
  | accept {s : Snapshot} {rest : List Snapshot} (hstep : p.step text s = .accept) :
    Runs p text (s :: rest) (some s)
  | next {s : Snapshot} {ways rest : List Snapshot} {r : Option Snapshot}
    (hstep : p.step text s = .next ways) (hrun : Runs p text (ways ++ rest) r) :
    Runs p text (s :: rest) r
  | fail {s : Snapshot} {rest : List Snapshot} {negated : Bool} {offset : Nat}
    {found r : Option Snapshot} (hstep : p.step text s = .look negated offset)
    (hlook : Runs p text [s.jump 1] found) (hfound : found.isSome = negated)
    (hrun : Runs p text rest r) : Runs p text (s :: rest) r
  | pass {s : Snapshot} {rest : List Snapshot} {negated : Bool} {offset : Nat}
    {found r : Option Snapshot} (hstep : p.step text s = .look negated offset)
    (hlook : Runs p text [s.jump 1] found) (hfound : found.isSome ≠ negated)
    (hrun : Runs p text
      ({ s.jump offset with slots := (found.map (·.slots)).getD s.slots } :: rest) r) :
    Runs p text (s :: rest) r

/-- The machine computes what a run derives. -/
theorem run_eq_of_runs {stack : List Snapshot} {r : Option Snapshot} (h : p.Runs text stack r)
    (hhalts : ∀ s ∈ stack, p.Halts text s) : p.run text stack hhalts = r := by
  induction h with
  | nil => rw [run]
  | accept hstep =>
    rw [run]
    split
    · rfl
    · rename_i ways hways
      exact absurd (hstep.symm.trans hways) (by simp)
    · rename_i negated offset hlook
      exact absurd (hstep.symm.trans hlook) (by simp)
  | next hstep _ ih =>
    rw [run]
    split
    · rename_i haccept
      exact absurd (hstep.symm.trans haccept) (by simp)
    · rename_i ways hways
      obtain rfl := Step.next.inj (hstep.symm.trans hways)
      exact ih _
    · rename_i negated offset hlook
      exact absurd (hstep.symm.trans hlook) (by simp)
  | fail hstep _ hfound _ ihlook ih =>
    rw [run]
    split
    · rename_i haccept
      exact absurd (hstep.symm.trans haccept) (by simp)
    · rename_i ways hways
      exact absurd (hstep.symm.trans hways) (by simp)
    · rename_i negated offset hlook
      obtain ⟨rfl, rfl⟩ := Step.look.inj (hstep.symm.trans hlook)
      simp only [ihlook, hfound, if_true, ih]
  | pass hstep _ hfound _ ihlook ih =>
    rw [run]
    split
    · rename_i haccept
      exact absurd (hstep.symm.trans haccept) (by simp)
    · rename_i ways hways
      exact absurd (hstep.symm.trans hways) (by simp)
    · rename_i negated offset hlook
      obtain ⟨rfl, rfl⟩ := Step.look.inj (hstep.symm.trans hlook)
      simp only [ihlook, hfound, if_false, ih]

/-- What lies below the top of the stack matters only through what it runs to. -/
theorem Runs.replace_below {above before after : List Snapshot} {r : Option Snapshot}
    (hrest : ∀ r, p.Runs text before r → p.Runs text after r)
    (h : p.Runs text (above ++ before) r) : p.Runs text (above ++ after) r := by
  generalize hstack : above ++ before = stack at h
  induction h generalizing above with
  | nil =>
    obtain ⟨rfl, rfl⟩ := List.append_eq_nil_iff.mp hstack
    exact hrest _ .nil
  | accept hstep =>
    cases above with
    | nil =>
      rw [List.nil_append] at hstack ⊢
      exact hrest _ (hstack ▸ .accept hstep)
    | cons s above =>
      obtain ⟨rfl, -⟩ := List.cons.inj hstack
      exact .accept hstep
  | next hstep hrun ih =>
    cases above with
    | nil =>
      rw [List.nil_append] at hstack ⊢
      exact hrest _ (hstack ▸ .next hstep hrun)
    | cons s above =>
      obtain ⟨rfl, rfl⟩ := List.cons.inj hstack
      refine .next hstep ?_
      show p.Runs text (_ ++ (above ++ after)) _
      rw [← List.append_assoc]
      exact ih (List.append_assoc _ _ _)
  | fail hstep hlook hfound hrun _ ih =>
    cases above with
    | nil =>
      rw [List.nil_append] at hstack ⊢
      exact hrest _ (hstack ▸ .fail hstep hlook hfound hrun)
    | cons s above =>
      obtain ⟨rfl, rfl⟩ := List.cons.inj hstack
      exact .fail hstep hlook hfound (ih rfl)
  | pass hstep hlook hfound hrun _ ih =>
    cases above with
    | nil =>
      rw [List.nil_append] at hstack ⊢
      exact hrest _ (hstack ▸ .pass hstep hlook hfound hrun)
    | cons s above =>
      obtain ⟨rfl, rfl⟩ := List.cons.inj hstack
      have hnext : p.Runs text ((_ :: above) ++ after) _ := ih rfl
      exact .pass hstep hlook hfound hnext

/-- The snapshots `before` may be replaced by `after` on top of any stack. -/
def Unfolds (p : Program) (text : Text) (before after : List Snapshot) : Prop :=
  ∀ rest r, p.Runs text (after ++ rest) r → p.Runs text (before ++ rest) r

theorem Unfolds.refl (l : List Snapshot) : p.Unfolds text l l := fun _ _ h => h

theorem Unfolds.trans {a b c : List Snapshot} (hab : p.Unfolds text a b)
    (hbc : p.Unfolds text b c) : p.Unfolds text a c := fun rest r h => hab rest r (hbc rest r h)

theorem Unfolds.append {a a' b b' : List Snapshot} (ha : p.Unfolds text a a')
    (hb : p.Unfolds text b b') : p.Unfolds text (a ++ b) (a' ++ b') := by
  intro rest r h
  rw [List.append_assoc] at h ⊢
  exact ha _ r (h.replace_below fun r => hb rest r)

theorem unfolds_of_next {s : Snapshot} {ways : List Snapshot}
    (h : p.step text s = .next ways) : p.Unfolds text [s] ways :=
  fun _ _ hrun => .next h hrun

/-- A run of accepting snapshots is decided by the first one. -/
theorem runs_head? {l : List Snapshot} (h : ∀ s ∈ l, p.step text s = .accept) :
    p.Runs text l l.head? := by
  cases l with
  | nil => exact .nil
  | cons s rest => exact .accept (h s (by simp))

end UnitRegex.Program
