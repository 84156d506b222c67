import Mathlib.Data.Set.Basic
import UnitRegex.Proofs.Backtrack.Undone
import UnitRegex.Proofs.Matching.Attempt

/-!
What the machine makes of a job. An attempt that is resumed either accepts or gives way to the jobs
below it, with the captures that it was resumed with. A failure puts the registers back as well,
except those that only runs of look-arounds use: such a run drops its stack when it accepts.
-/

namespace UnitRegex

/-! ### Registers -/

/-- Registers that agree except in a set. -/
structure AgreeOutside (S : Set Nat) (before after : Array Nat) : Prop where
  size : after.size = before.size
  get : ∀ i, i ∉ S → after[i]? = before[i]?

namespace AgreeOutside

variable {S T : Set Nat} {a b c : Array Nat} {r value old : Nat}

theorem refl (S : Set Nat) (a : Array Nat) : AgreeOutside S a a := ⟨rfl, fun _ _ => rfl⟩

theorem trans (h : AgreeOutside S a b) (h' : AgreeOutside S b c) : AgreeOutside S a c :=
  ⟨h'.size.trans h.size, fun i hi => (h'.get i hi).trans (h.get i hi)⟩

theorem mono (h : AgreeOutside S a b) (hST : S ⊆ T) : AgreeOutside T a b :=
  ⟨h.size, fun i hi => h.get i fun hS => hi (hST hS)⟩

theorem set (h : r ∈ S) : AgreeOutside S a (a.setIfInBounds r value) where
  size := Array.size_setIfInBounds
  get _ hi := Array.getElem?_setIfInBounds_ne (ne_of_mem_of_not_mem h hi)

/-- Putting a register back undoes that it was set. -/
theorem restore (h : AgreeOutside S (a.setIfInBounds r value) b) (hold : a[r]? = some old) :
    AgreeOutside S a (b.setIfInBounds r old) where
  size := by rw [Array.size_setIfInBounds, h.size, Array.size_setIfInBounds]
  get i hi := by
    obtain ⟨hlt, -⟩ := Array.getElem?_eq_some_iff.mp hold
    have hsize : b.size = a.size := by rw [h.size, Array.size_setIfInBounds]
    by_cases hr : r = i
    · subst hr
      rw [Array.getElem?_setIfInBounds_self_of_lt (hsize ▸ hlt), hold]
    · rw [Array.getElem?_setIfInBounds_ne hr, h.get i hi, Array.getElem?_setIfInBounds_ne hr]

end AgreeOutside

/-- The registers of the instructions up to where a run accepts. -/
structure RegisterScope where
  /-- Registers that only runs of look-arounds use. -/
  inner : Set Nat
  /-- All registers that are written. -/
  own : Set Nat
  inner_subset : inner ⊆ own

namespace Machine

variable {p : Machine} {text : Text} {scope : RegisterScope}

/-! ### Outcomes of a job -/

/-- A run has the outcome of an attempt that is resumed in a state. -/
def Ends (p : Machine) (text : Text) (scope : RegisterScope) (registers : Array Nat)
    (x : MatchState) (rest : List Job) (result : Option (Option Nat × Memory)) : Option MatchState → Prop
  | some y => ∃ after, AgreeOutside scope.own registers after ∧
    result = some (some y.cursor, ⟨after, y.slots⟩)
  | none => ∃ after, AgreeOutside scope.inner registers after ∧
    result = p.run text rest ⟨after, x.slots⟩

/-- An attempt may begin with inner registers that an earlier one has left changed. -/
theorem Ends.of_agree {registers after : Array Nat} {x : MatchState} {rest : List Job}
    {result : Option (Option Nat × Memory)} {outcome : Option MatchState}
    (hafter : AgreeOutside scope.inner registers after)
    (h : p.Ends text scope after x rest result outcome) :
    p.Ends text scope registers x rest result outcome := by
  cases outcome with
  | some y =>
    obtain ⟨final, hfinal, hresult⟩ := h
    exact ⟨final, (hafter.mono scope.inner_subset).trans hfinal, hresult⟩
  | none =>
    obtain ⟨final, hfinal, hresult⟩ := h
    exact ⟨final, hafter.trans hfinal, hresult⟩

/-- Resumed at an instruction in a state the machine comes to an outcome, whatever the jobs below
are. -/
def Serves (p : Machine) (text : Text) (scope : RegisterScope) (pc : Nat) (registers : Array Nat)
    (x : MatchState) (outcome : Option MatchState) : Prop :=
  ∀ rest, p.Ends text scope registers x rest
    (p.run text (.resume pc x.cursor :: rest) ⟨registers, x.slots⟩) outcome

section

variable {pc pc' : Nat} {registers : Array Nat} {x y : MatchState} {op : Op}
  {outcome : Option MatchState}

theorem serves_of_accept (hop : p.ops[pc]? = some op)
    (h : p.execute text ⟨registers, x.slots⟩ pc x.cursor op = some .accept) :
    p.Serves text scope pc registers x (some x) :=
  fun rest => ⟨registers, .refl _ _, run_of_accept hop h rest⟩

theorem serves_of_fail (hop : p.ops[pc]? = some op)
    (h : p.execute text ⟨registers, x.slots⟩ pc x.cursor op = some .fail) :
    p.Serves text scope pc registers x none :=
  fun rest => ⟨registers, .refl _ _, run_of_fail hop h rest⟩

/-- The attempt goes on at another position. -/
theorem serves_of_move {cursor : Nat} (hop : p.ops[pc]? = some op)
    (h : p.execute text ⟨registers, x.slots⟩ pc x.cursor op =
      some (.go pc' cursor [] ⟨registers, x.slots⟩))
    (hnext : p.Serves text scope pc' registers (x.moveTo cursor) outcome) :
    p.Serves text scope pc registers x outcome := by
  intro rest
  rw [run_of_go hop h]
  cases outcome with
  | some y => exact hnext rest
  | none => exact hnext rest

/-- The attempt goes on with a register set. -/
theorem serves_of_setRegister {r value : Nat} (hop : p.ops[pc]? = some op)
    (h : p.execute text ⟨registers, x.slots⟩ pc x.cursor op =
      setRegister ⟨registers, x.slots⟩ r value pc' x.cursor)
    (hr : r < registers.size) (hown : r ∈ scope.own)
    (hnext : p.Serves text scope pc' (registers.setIfInBounds r value) x outcome) :
    p.Serves text scope pc registers x outcome := by
  intro rest
  have hold : registers[r]? = some registers[r] := Array.getElem?_eq_getElem hr
  have hgo := h.trans (congrArg (Option.map _) hold)
  rw [run_of_go hop hgo]
  cases outcome with
  | some y =>
    obtain ⟨after, hafter, hrun⟩ := hnext (.restoreRegister r registers[r] :: rest)
    exact ⟨after, (AgreeOutside.set hown).trans hafter, hrun⟩
  | none =>
    obtain ⟨after, hafter, hrun⟩ := hnext (.restoreRegister r registers[r] :: rest)
    exact ⟨_, hafter.restore hold, hrun.trans (run_restoreRegister ..)⟩

/-- The attempt goes on with slots set. -/
theorem serves_of_setSlots {changes : List (Nat × Int)} {pushed : List Job} {slots : Slots}
    (hop : p.ops[pc]? = some op)
    (h : p.execute text ⟨registers, x.slots⟩ pc x.cursor op =
      setSlots ⟨registers, x.slots⟩ changes pc' x.cursor)
    (hset : (⟨registers, x.slots⟩ : Memory).setSlots [] changes =
      some (pushed, ⟨registers, slots⟩))
    (hnext : p.Serves text scope pc' registers { x with slots := slots } outcome) :
    p.Serves text scope pc registers x outcome := by
  intro rest
  have hgo := h.trans (congrArg (Option.map _) hset)
  rw [run_of_go hop hgo]
  cases outcome with
  | some y => exact hnext (pushed ++ rest)
  | none =>
    obtain ⟨after, hafter, hrun⟩ := hnext (pushed ++ rest)
    refine ⟨after, hafter, hrun.trans ?_⟩
    have hpushed : OnlySlots pushed := onlySlots_setSlots (fun _ h => by cases h) hset
    have hundo : undo pushed slots = x.slots := (undo_setSlots hset).1
    rw [run_onlySlots hpushed, hundo]

/-- Two attempts, the second one for when the first has failed. -/
theorem serves_of_split {first second : Nat} {o₁ o₂ : Option MatchState}
    (hop : p.ops[pc]? = some op)
    (h : p.execute text ⟨registers, x.slots⟩ pc x.cursor op =
      some (.go first x.cursor [.resume second x.cursor] ⟨registers, x.slots⟩))
    (hfirst : p.Serves text scope first registers x o₁)
    (hsecond : ∀ after, AgreeOutside scope.inner registers after →
      p.Serves text scope second after x o₂) :
    p.Serves text scope pc registers x (o₁.or o₂) := by
  intro rest
  rw [run_of_go hop h]
  cases o₁ with
  | some y => exact hfirst (.resume second x.cursor :: rest)
  | none =>
    obtain ⟨after, hafter, hrun⟩ := hfirst (.resume second x.cursor :: rest)
    rw [List.singleton_append, hrun, Option.none_or]
    exact (hsecond after hafter rest).of_agree hafter

/-- A look-around. Its run has a scope of its own, all of which lies in the inner registers of the
run around it. -/
theorem serves_of_look {inside : RegisterScope} {negated : Bool} {next : Nat}
    {found : Option MatchState} {k : Continuation} (hop : p.ops[pc]? = some (.look negated next))
    (hinside : inside.own ⊆ scope.inner)
    (hbody : p.Serves text inside (pc + 1) registers x found)
    (hnext : ∀ after y, AgreeOutside scope.inner registers after → y.cursor = x.cursor →
      y.slots.size = x.slots.size → p.Serves text scope next after y (k y)) :
    p.Serves text scope pc registers x
      (match found, negated with
      | some y, false => k { x with slots := y.slots }
      | none, true => k x
      | _, _ => none) := by
  intro rest
  specialize hbody []
  cases found with
  | none =>
    obtain ⟨after, hafter, hrun⟩ := hbody
    have hafter := hafter.mono (inside.inner_subset.trans hinside)
    rw [run_of_look hop (hrun.trans (run_nil _))]
    cases negated with
    | false => exact ⟨after, hafter, rfl⟩
    | true => exact (hnext after x hafter rfl rfl rest).of_agree hafter
  | some y =>
    obtain ⟨after, hafter, hrun⟩ := hbody
    have hafter := hafter.mono hinside
    have hsize : y.slots.size = x.slots.size := (slots_of_runs (runs_of_run hrun)).1
    rw [run_of_look hop hrun]
    cases negated with
    | true => exact ⟨after, hafter, rfl⟩
    | false =>
      -- Whatever fails behind the look-around gives way to the jobs that restore the captures.
      have hbehind := (hnext after { x with slots := y.slots } hafter rfl hsize
        (x.slots.restore y.slots ++ rest)).of_agree hafter
      cases hk : k { x with slots := y.slots } with
      | some z =>
        rw [hk] at hbehind
        simp only [hk]
        exact hbehind
      | none =>
        rw [hk] at hbehind
        obtain ⟨final, hfinal, hresult⟩ := hbehind
        simp only [hk]
        exact ⟨final, hfinal, hresult.trans (run_restore hsize rest final)⟩

end

end Machine

end UnitRegex
