import Mathlib.Data.List.Basic
import UnitRegex.Proofs.Matching.Outcomes

/-!
Loops taken apart. The mandatory iterations come first; behind them every iteration has to move, so
a loop without a bound goes on as if it had just begun, and one with a bound is a nest of options.
-/

namespace UnitRegex.Behavior

variable {text : Text} {d : Direction}

/-- Something or nothing, in the order that greediness asks for. -/
def option (greedy : Bool) (f : Behavior) : Behavior := fun x =>
  if greedy then f x ++ [x] else x :: f x

/-- A number of iterations in front of something. -/
def times (f : Behavior) : Nat → Behavior → Behavior
  | 0, g => g
  | n + 1, g => times f n (f.andThen g)

/-- At most a number of iterations, all of which move. -/
def upTo (text : Text) (d : Direction) (greedy : Bool) (f : Behavior) : Nat → Behavior
  | 0 => fun x => [x]
  | n + 1 => option greedy ((moving text d f).andThen (upTo text d greedy f n))

/-- A behavior that always reads something. -/
def Consumes (text : Text) (d : Direction) (f : Behavior) : Prop :=
  ∀ x, ∀ y ∈ f x, text.left d y.cursor < text.left d x.cursor

theorem consumes_moving (f : Behavior) : (moving text d f).Consumes text d := by
  intro x y hy
  simpa using (List.mem_filter.mp hy).2

theorem moving_of_consumes {f : Behavior} (h : f.Consumes text d) : moving text d f = f := by
  funext x
  exact List.filter_eq_self.mpr fun y hy => by simpa using h x y hy

theorem andThen_assoc (f g h : Behavior) : (f.andThen g).andThen h = f.andThen (g.andThen h) := by
  funext x
  exact List.flatMap_assoc

theorem times_andThen (f : Behavior) (n : Nat) (g : Behavior) :
    times f n (f.andThen g) = f.andThen (times f n g) := by
  induction n generalizing g with
  | zero => rfl
  | succ n ih => exact ih (f.andThen g)

theorem flatMap_filter {α β : Type} (l : List α) (p : α → Bool) (g : α → List β) :
    (l.filter p).flatMap g = l.flatMap fun a => if p a then g a else [] := by
  induction l with
  | nil => rfl
  | cons a l ih =>
    by_cases hp : p a <;> simp [hp, ih]

theorem repeated_of_lt_min {q : Quantifier} {f : Behavior} {count : Nat} (h : count < q.min) :
    repeated text d q f count = f.andThen (repeated text d q f (count + 1)) := by
  funext x
  have hfree : ¬q.min ≤ count := by omega
  rw [repeated, if_pos h]
  simp only [hfree, false_and, if_false]
  rfl

/-- Behind the minimum another iteration has to move. -/
theorem repeated_of_min_le {q : Quantifier} {f : Behavior} {count : Nat} (h : q.min ≤ count) :
    repeated text d q f count =
      if q.max.any (· ≤ count) then fun x => [x]
      else option q.greedy ((moving text d f).andThen (repeated text d q f (count + 1))) := by
  funext x
  have hagain : ((moving text d f).andThen (repeated text d q f (count + 1))) x =
      (f x).flatMap fun y =>
        if q.min ≤ count ∧ text.left d x.cursor ≤ text.left d y.cursor then []
        else repeated text d q f (count + 1) y := by
    rw [andThen, moving, flatMap_filter]
    congr 1
    funext y
    by_cases hmoved : text.left d y.cursor < text.left d x.cursor
    · rw [if_pos (by simpa using hmoved), if_neg (by omega)]
    · rw [if_neg (by simpa using hmoved), if_pos ⟨h, by omega⟩]
  rw [repeated, if_neg (by omega)]
  split
  · rfl
  · rw [option, hagain]

/-- The mandatory iterations of a loop come first. -/
theorem repeated_eq_times (q : Quantifier) (f : Behavior) :
    repeated text d q f 0 = times f q.min (repeated text d q f q.min) := by
  have hfront : ∀ n ≤ q.min, repeated text d q f (q.min - n) =
      times f n (repeated text d q f q.min) := by
    intro n
    induction n with
    | zero => exact fun _ => rfl
    | succ n ih =>
      intro hn
      rw [repeated_of_lt_min (by omega), show q.min - (n + 1) + 1 = q.min - n by omega,
        ih (by omega), ← times_andThen]
      rfl
  have hall := hfront q.min (Nat.le_refl _)
  rwa [Nat.sub_self] at hall

/-- Behind the minimum a loop without a bound does not count. -/
theorem repeated_eq_of_unbounded {q : Quantifier} (hmax : q.max = none) (f : Behavior)
    {count : Nat} (h : q.min ≤ count) (x : MatchState) :
    repeated text d q f count x = repeated text d q f q.min x := by
  rw [repeated_of_min_le h, repeated_of_min_le (Nat.le_refl q.min)]
  simp only [hmax, Option.any_none, Bool.false_eq_true, if_false, option]
  have hagain : ((moving text d f).andThen (repeated text d q f (count + 1))) x =
      ((moving text d f).andThen (repeated text d q f (q.min + 1))) x := by
    refine List.flatMap_congr fun y hy => ?_
    have hmoved := consumes_moving f x y hy
    rw [repeated_eq_of_unbounded hmax f (Nat.le_succ_of_le h) y,
      repeated_eq_of_unbounded hmax f (Nat.le_succ q.min) y]
  rw [hagain]
termination_by text.left d x.cursor

theorem repeated_unbounded {q : Quantifier} (hmax : q.max = none) (f : Behavior) :
    repeated text d q f q.min =
      option q.greedy ((moving text d f).andThen (repeated text d q f q.min)) := by
  have hstep : repeated text d q f q.min = _ := repeated_of_min_le (Nat.le_refl q.min)
  simp only [hmax, Option.any_none, Bool.false_eq_true, if_false] at hstep
  have hnext : repeated text d q f (q.min + 1) = repeated text d q f q.min :=
    funext fun x => repeated_eq_of_unbounded hmax f (Nat.le_succ q.min) x
  rwa [hnext] at hstep

/-- Behind the minimum a loop with a bound is a nest of options. -/
theorem repeated_eq_upTo {q : Quantifier} {high : Nat} (hmax : q.max = some high) (f : Behavior)
    {count : Nat} (h : q.min ≤ count) :
    repeated text d q f count = upTo text d q.greedy f (high - count) := by
  generalize hn : high - count = n
  induction n generalizing count with
  | zero =>
    rw [repeated_of_min_le h, if_pos (by simp [hmax]; omega)]
    rfl
  | succ n ih =>
    rw [repeated_of_min_le h, if_neg (by simp [hmax]; omega), ih (by omega) (by omega)]
    rfl

end UnitRegex.Behavior
