import UnitRegex.Proofs.Matching.Attempt

/-!
The states that a part of a pattern leads to, in order of preference. Trying the part with a
continuation gives what the continuation makes of the first of them that it accepts, so statements
about attempts follow from statements about lists.
-/

namespace UnitRegex

/-- A part of a pattern as the list of states that it leads to. -/
abbrev Behavior := MatchState → List MatchState

namespace Behavior

def andThen (f g : Behavior) : Behavior := fun x => (f x).flatMap g

def orElse (f g : Behavior) : Behavior := fun x => f x ++ g x

/-- Goes on without a move if a condition on the position holds. -/
def check (p : Nat → Bool) : Behavior := fun x => if p x.cursor then [x] else []

def unit (text : Text) (d : Direction) (set : CharSet) : Behavior := fun x =>
  match text.read x.cursor d with
  | some (c, cursor) => if set.contains c then [x.moveTo cursor] else []
  | none => []

def pass (d : Direction) (capture : Option Nat) (span : Option (Nat × Nat)) (body : Behavior) :
    Behavior := fun x =>
  (body (x.clear span)).map (·.recordAny d capture x.cursor)

/-- Keeps the outcomes in front of which something was read. -/
def moving (text : Text) (d : Direction) (f : Behavior) : Behavior := fun x =>
  (f x).filter fun y => text.left d y.cursor < text.left d x.cursor

def repeated (text : Text) (d : Direction) (q : Quantifier) (body : Behavior) (count : Nat)
    (x : MatchState) : List MatchState :=
  let again := (body x).flatMap fun y =>
    if q.min ≤ count ∧ text.left d x.cursor ≤ text.left d y.cursor then []
    else repeated text d q body (count + 1) y
  if count < q.min then again
  else if q.max.any (· ≤ count) then [x]
  else if q.greedy then again ++ [x]
  else x :: again
termination_by (q.min - count, text.left d x.cursor)
decreasing_by
  rw [Prod.lex_def]
  omega

/-- What a look-around leaves of the state in which it is tried. -/
def look (negated : Bool) (body : Behavior) : Behavior := fun x =>
  match (body x).head?, negated with
  | some y, false => [{ x with slots := y.slots }]
  | none, true => [x]
  | _, _ => []

/-- Captures may be unset before a pass begins. -/
theorem clear_andThen_pass (d : Direction) (capture : Option Nat) (span : Option (Nat × Nat))
    (f : Behavior) :
    Behavior.andThen (fun x => [x.clear span]) (.pass d capture none f) =
      .pass d capture span f := by
  funext x
  have hcursor : (x.clear span).cursor = x.cursor := by cases span <;> rfl
  have hnone : (x.clear span).clear none = x.clear span := rfl
  simp only [andThen, List.flatMap_singleton, pass, hcursor, hnone]

end Behavior

mutual

def Term.outcomes (flags : Flags) (text : Text) (d : Direction) : Term → Behavior
  | .unit set => .unit text d set
  | .anchor kind => .check fun cursor => kind.holds flags.multiline text cursor
  | .backReference group => fun x =>
    ((text.readGroup flags x.slots group x.cursor d).map x.moveTo).toList
  | .look behind negated body => .look negated (body.outcomes flags text (.ofLook behind))
  | .group capture none body => .pass d capture none (body.outcomes flags text d)
  | .group capture (some q) body =>
    .repeated text d q
      (.pass d capture (Term.group capture (some q) body).groupSpan (body.outcomes flags text d))
      0

def Branch.outcomes (flags : Flags) (text : Text) (d : Direction) : Branch → Behavior
  | .nil => fun x => [x]
  | .cons t rest =>
    match d with
    | .forward => (t.outcomes flags text d).andThen (rest.outcomes flags text d)
    | .backward => (rest.outcomes flags text d).andThen (t.outcomes flags text d)

def Choice.outcomes (flags : Flags) (text : Text) (d : Direction) : Choice → Behavior
  | .one b => b.outcomes flags text d
  | .more b rest => (b.outcomes flags text d).orElse (rest.outcomes flags text d)

end

/-- An attempt tries the continuation on the outcomes of a behavior in order. -/
def Attempt.Follows (a : Attempt) (f : Behavior) : Prop := ∀ x k, a x k = (f x).findSome? k

namespace Attempt

variable {text : Text} {d : Direction}

theorem findSome?_flatMap {α β γ : Type} (l : List α) (f : α → List β) (k : β → Option γ) :
    (l.flatMap f).findSome? k = l.findSome? fun a => (f a).findSome? k := by
  induction l with
  | nil => rfl
  | cons a l ih =>
    rw [List.flatMap_cons, List.findSome?_append, ih, List.findSome?_cons]
    cases (f a).findSome? k <;> rfl

theorem Follows.andThen {a b : Attempt} {f g : Behavior} (ha : a.Follows f) (hb : b.Follows g) :
    Attempt.Follows (fun x k => a x fun y => b y k) (f.andThen g) := by
  intro x k
  have hk : (fun y => b y k) = fun y => (g y).findSome? k := funext fun y => hb y k
  show (a x fun y => b y k) = _
  rw [hk, ha x, Behavior.andThen, findSome?_flatMap]

theorem Follows.orElse {a b : Attempt} {f g : Behavior} (ha : a.Follows f) (hb : b.Follows g) :
    Attempt.Follows (fun x k => (a x k).or (b x k)) (f.orElse g) := by
  intro x k
  simp only [ha x k, hb x k, Behavior.orElse, List.findSome?_append]

theorem Follows.pass {a : Attempt} {f : Behavior} (ha : a.Follows f) (capture : Option Nat)
    (span : Option (Nat × Nat)) :
    (Attempt.pass d capture span a).Follows (.pass d capture span f) := by
  intro x k
  rw [Attempt.pass, ha (x.clear span), Behavior.pass, List.findSome?_map, Function.comp_def]

theorem repeated_eq_findSome? {a : Attempt} {f : Behavior} (ha : a.Follows f) (q : Quantifier)
    (count : Nat) (x : MatchState) (k : Continuation) :
    Attempt.repeated text d q a count x k =
      (Behavior.repeated text d q f count x).findSome? k := by
  have again : a x (fun y =>
      if q.min ≤ count ∧ text.left d x.cursor ≤ text.left d y.cursor then none
      else Attempt.repeated text d q a (count + 1) y k) =
      ((f x).flatMap fun y =>
        if q.min ≤ count ∧ text.left d x.cursor ≤ text.left d y.cursor then []
        else Behavior.repeated text d q f (count + 1) y).findSome? k := by
    rw [ha x, findSome?_flatMap]
    congr 1
    funext y
    split
    · rfl
    · exact repeated_eq_findSome? ha q (count + 1) y k
  rw [Attempt.repeated, Behavior.repeated]
  simp only [again]
  split
  · rfl
  · split
    · simp
    · split
      · simp [List.findSome?_append]
      · rw [List.findSome?_cons]
        cases k x <;> rfl
termination_by (q.min - count, text.left d x.cursor)
decreasing_by
  rw [Prod.lex_def]
  omega

end Attempt

mutual

/-- Trying a term tries the continuation on its outcomes in order. -/
theorem Term.attempt_follows (flags : Flags) (text : Text) (d : Direction) (t : Term) :
    (t.attempt flags text d).Follows (t.outcomes flags text d) := by
  match t with
  | .unit set =>
    intro x k
    simp only [Term.attempt, Term.outcomes, Behavior.unit]
    cases text.read x.cursor d with
    | none => rfl
    | some next =>
      by_cases hset : set.contains next.1 <;> simp [hset]
  | .anchor kind =>
    intro x k
    simp only [Term.attempt, Term.outcomes, Behavior.check]
    split <;> simp
  | .backReference group =>
    intro x k
    simp only [Term.attempt, Term.outcomes]
    cases text.readGroup flags x.slots group x.cursor d <;> simp
  | .look behind negated body =>
    intro x k
    have hbody := body.attempt_follows flags text (.ofLook behind) x some
    have hhead : ∀ l : List MatchState, l.findSome? some = l.head? := by
      intro l
      cases l <;> rfl
    rw [hhead] at hbody
    simp only [Term.attempt, Term.outcomes, Behavior.look, hbody]
    cases ((body.outcomes flags text (.ofLook behind)) x).head? <;> cases negated <;> simp
  | .group capture none body => exact (body.attempt_follows flags text d).pass capture none
  | .group capture (some q) body =>
    intro x k
    exact Attempt.repeated_eq_findSome? ((body.attempt_follows flags text d).pass capture _) q 0 x k

theorem Branch.attempt_follows (flags : Flags) (text : Text) (d : Direction) (b : Branch) :
    (b.attempt flags text d).Follows (b.outcomes flags text d) := by
  match b with
  | .nil =>
    intro x k
    simp [Branch.attempt, Branch.outcomes]
  | .cons t rest =>
    have ht := t.attempt_follows flags text d
    have hrest := rest.attempt_follows flags text d
    cases d with
    | forward => exact ht.andThen hrest
    | backward => exact hrest.andThen ht

theorem Choice.attempt_follows (flags : Flags) (text : Text) (d : Direction) (c : Choice) :
    (c.attempt flags text d).Follows (c.outcomes flags text d) := by
  match c with
  | .one b => exact b.attempt_follows flags text d
  | .more b rest =>
    exact (b.attempt_follows flags text d).orElse (rest.attempt_follows flags text d)

end

end UnitRegex
