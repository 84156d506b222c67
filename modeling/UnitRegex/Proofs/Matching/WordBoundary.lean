import UnitRegex.Proofs.Alphabet.Extensional
import UnitRegex.Proofs.Matching.Plain

/-!
Word boundaries by look-around. A boundary has a word character on exactly one side; a look-behind
and a look-ahead over the set of word characters test the two sides one by one.
-/

namespace UnitRegex

/-- The terms of `(?:(?<=\w)(?!\w)|(?<!\w)(?=\w))` for a set in the place of `\w`. -/
def Choice.borders (set : CharSet) : Choice :=
  let side : Choice := .one (.cons (.unit set) .nil)
  .one (.cons
    (.group none none
      (.more (.cons (.look true false side) (.cons (.look false true side) .nil))
        (.one (.cons (.look true true side) (.cons (.look false false side) .nil))))) .nil)

/-- Whether a member of a set stands on one side of a position. -/
def Text.beside (text : Text) (set : CharSet) (behind : Bool) (i : Nat) : Bool :=
  if behind then 0 < i && text[i - 1]?.any set.contains else text[i]?.any set.contains

variable {text : Text} {set : CharSet} {i : Nat}

namespace Behavior

theorem andThen_stay (f : Behavior) : f.andThen (fun x => [x]) = f := by
  funext x
  simp [andThen]

theorem check_andThen_check (p q : Nat → Bool) :
    (check p).andThen (check q) = check fun i => p i && q i := by
  funext x
  by_cases hp : p x.cursor = true <;> simp [andThen, check, hp]

/-- Of two conditions that exclude each other at most one lets a state through. -/
theorem check_orElse_check {p q : Nat → Bool} (h : ∀ i, p i = true → q i = false) :
    (check p).orElse (check q) = check fun i => p i || q i := by
  funext x
  by_cases hp : p x.cursor = true
  · simp [orElse, check, hp, h x.cursor hp]
  · simp [orElse, check, hp]

end Behavior

theorem Text.isSome_sequenceEnd? (behind : Bool) :
    (text.sequenceEnd? [set] i (.ofLook behind)).isSome = text.beside set behind i := by
  cases behind with
  | false =>
    simp only [Direction.ofLook, Bool.false_eq_true, ↓reduceIte, sequenceEnd?, matchesAt, beside,
      Bool.and_true]
    split <;> simp_all
  | true =>
    simp only [Direction.ofLook, ↓reduceIte, sequenceEnd?, matchesAt, beside, Bool.and_true,
      List.length_singleton]
    split <;> simp_all [Nat.succ_le_iff]

theorem Term.look_outcomes_of_unit (flags : Flags) (d : Direction) (behind negated : Bool) :
    (Term.look behind negated (.one (.cons (.unit set) .nil))).outcomes flags text d =
      .check fun i => text.beside set behind i != negated := by
  have hplain : Choice.plain? (.one (.cons (.unit set) .nil)) = some [[set]] := rfl
  rw [Term.look_outcomes_of_plain? flags text d behind negated _ hplain]
  simp only [List.any_cons, List.any_nil, Bool.or_false, Text.isSome_sequenceEnd?]

/-- A look-behind and a look-ahead test the two sides of a position. -/
theorem Branch.outcomes_sides (flags : Flags) (behind ahead : Bool) :
    (Branch.cons (.look true behind (.one (.cons (.unit set) .nil)))
      (.cons (.look false ahead (.one (.cons (.unit set) .nil))) .nil)).outcomes flags text
        .forward =
      .check fun i => (text.beside set true i != behind) && (text.beside set false i != ahead) := by
  simp only [Branch.outcomes, Term.look_outcomes_of_unit, Behavior.andThen_stay,
    Behavior.check_andThen_check]

/-- The look-arounds let a position through that has a member of the set on one side only. -/
theorem Choice.outcomes_borders (flags : Flags) (set : CharSet) :
    (Choice.borders set).outcomes flags text .forward =
      .check fun i => text.beside set true i != text.beside set false i := by
  have hbranches : (Choice.borders set).outcomes flags text .forward =
      .orElse
        (.check fun i => (text.beside set true i != false) && (text.beside set false i != true))
        (.check fun i =>
          (text.beside set true i != true) && (text.beside set false i != false)) := by
    rw [Choice.borders, Choice.outcomes, Branch.outcomes]
    rw [Branch.outcomes, Behavior.andThen_stay, Term.outcomes, Behavior.pass_none_none,
      Choice.outcomes, Choice.outcomes, Branch.outcomes_sides, Branch.outcomes_sides]
  rw [hbranches, Behavior.check_orElse_check]
  · congr 1
    funext i
    cases text.beside set true i <;> cases text.beside set false i <;> rfl
  · intro i
    cases text.beside set true i <;> cases text.beside set false i <;> decide

/-- A word boundary is one between members and others of any set that has the word characters as its
members. -/
theorem Anchor.holds_wordBoundary (multiline : Bool) (h : ∀ c, set.contains c = c.isWord) :
    Anchor.holds multiline text i .wordBoundary =
      (text.beside set true i != text.beside set false i) := by
  have hcontains : set.contains = CodeUnit.isWord := funext h
  simp [Anchor.holds, Anchor.holds.borders, Anchor.holds.wordAt, Text.beside, hcontains]

/-- A word boundary is found where the look-arounds for the word characters let a position
through. -/
theorem Choice.outcomes_wordBoundary (flags : Flags) (h : ∀ c, set.contains c = c.isWord) :
    (Choice.one (.cons (.anchor .wordBoundary) .nil)).outcomes flags text .forward =
      (Choice.borders set).outcomes flags text .forward := by
  rw [Choice.outcomes_borders, Choice.outcomes, Branch.outcomes, Branch.outcomes,
    Behavior.andThen_stay, Term.outcomes]
  simp only [Anchor.holds_wordBoundary _ h]

end UnitRegex
