import UnitRegex.Pattern.Arena

/-!
Ids that are given in place. A walk that stops leaves the ids that it has given by then, and only a
walk that comes to its end puts in the index of the ids.
-/

namespace UnitRegex.Arena

/-- Gives ids from `next` on to the nodes on the stack and to all below them, until there is none
left or the walk has to stop. -/
def giveFrom (a : Arena) (n : Numbering) (next : Nat) : List Nat → Option Breach × Numbering
  | [] => (none, n)
  | slot :: stack =>
    match n.id? slot with
    | some id =>
      if a.shapes[slot]?.any (·.isSentinel) then a.giveFrom n next stack
      else (some (.alreadyNumbered slot id), n)
    | none =>
      if a.layout.loopBack ≤ next then (some (.idOutOfRange next a.layout.size), n)
      else a.giveFrom (n.give slot next) (next + 1) (a.children slot ++ stack)
termination_by stack => (a.layout.loopBack - next, stack.length)

/-- Gives every node its id, and the layout of the ids. Where that fails the index is the one that
was there before. -/
def index (a : Arena) (n : Numbering) : Except Breach IdLayout × Numbering :=
  match a.giveFrom (a.opened n) a.layout.first (a.children a.rootParent) with
  | (none, given) => (.ok a.layout, given)
  | (some breach, given) => (.error breach, { given with index := n.index })

/-- A walk in place goes as the walk that gives nothing when it stops. -/
theorem numberFrom_eq (a : Arena) (n : Numbering) (next : Nat) (stack : List Nat) :
    a.numberFrom n next stack =
      match a.giveFrom n next stack with
      | (none, given) => .ok given
      | (some breach, _) => .error breach := by
  induction n, next, stack using Arena.numberFrom.induct a with
  | case1 n next => rw [numberFrom, giveFrom]
  | case2 n next slot stack id hid hsentinel ih =>
    rw [numberFrom, giveFrom, hid]
    simp only [hsentinel, if_true]
    exact ih
  | case3 n next slot stack id hid hnode =>
    rw [numberFrom, giveFrom, hid]
    simp [hnode]
  | case4 n next slot stack hid hfull =>
    rw [numberFrom, giveFrom, hid]
    simp [hfull]
  | case5 n next slot stack hid hroom ih =>
    rw [numberFrom, giveFrom, hid]
    simp only [hroom, if_false]
    exact ih

/-- Ids that can be given are given in place. -/
theorem index_of_number {a : Arena} {n n' : Numbering} (h : a.number n = .ok n') :
    a.index n = (.ok a.layout, n') := by
  rw [number, numberFrom_eq] at h
  unfold index
  split at h
  · rw [Except.ok.inj h]
  · cases h

end UnitRegex.Arena
