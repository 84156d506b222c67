import UnitRegex.Proofs.Pattern.Total

/-!
Where reading by position comes. A place in front of a term is reached from the start of the
pattern over terms, bars and openings of groups. What goes wrong at such a place is what goes wrong
with the pattern, whatever stands behind.
-/

namespace UnitRegex

namespace PatternText

open Scan

variable {s : PatternText} {x y : Spot} {e : Fault × Nat}

/-- A term starts at the spot: there is a character that does not end a branch. -/
def StartsTerm (s : PatternText) (x : Spot) : Prop :=
  ∃ c, s.chars[x.pos]? = some c ∧ c ≠ '|' ∧ c ≠ ')'

/-- Reading comes to the spot in front of a term or at the end of a branch. -/
inductive Comes (s : PatternText) : Spot → Prop
  | start : s.Comes {}
  | term {x y : Spot} {t : Term} (h : s.Comes x) (hx : s.StartsTerm x)
    (ht : (s.scanTerm x).run = some (.ok (t, y))) : s.Comes y
  | bar {x y : Spot} (h : s.Comes x) (hbar : (s.accept '|' x).run = some (.ok (true, y))) :
    s.Comes y
  | opening {x y z : Spot} {opening : Opening} (h : s.Comes x)
    (hopen : s.chars[x.pos]? = some '(') (henter : (enter x).run = some (.ok ((), y)))
    (hkind : (s.scanOpening y).run = some (.ok (opening, z))) : s.Comes z

/-- Reading comes to the spot behind an atom, where a quantifier may follow. -/
def BehindAtom (s : PatternText) (y : Spot) : Prop :=
  ∃ x atom, s.Comes x ∧ s.StartsTerm x ∧ (s.anchorAhead x).run = some (.ok (none, x)) ∧
    (s.scanAtom x).run = some (.ok (atom, y))

/-- The rest of some branches, behind terms of the first one. -/
def scanRest (s : PatternText) (terms : List Term) : Scan Choice := do
  let branch ← s.scanTerms terms
  if ← s.accept '|' then return .more branch (← s.scanChoice) else return .one branch

theorem scanChoice_eq (s : PatternText) : s.scanChoice = s.scanRest [] := by
  rw [scanChoice]
  rfl

/-- Where a scanner stops with a fault, one that goes on with its result does so too. -/
theorem run_bind_of_error {α β : Type} {m : Scan α} (f : α → Scan β)
    (h : (m x).run = some (.error e)) : ((m >>= f) x).run = some (.error e) := by
  rw [run_bind, h]
  rfl

theorem run_bind_of_ok {α β : Type} {m : Scan α} (f : α → Scan β) {a : α}
    (h : (m x).run = some (.ok (a, y))) : ((m >>= f) x).run = (f a y).run := by
  rw [run_bind, h]
  rfl

theorem run_peek (s : PatternText) (x : Spot) :
    (s.peek x).run = some (.ok (s.chars[x.pos]?, x)) := rfl

theorem run_lookingAt (s : PatternText) (chars : List Char) (x : Spot) :
    (s.lookingAt chars x).run = some (.ok (s.looksAt x.pos chars, x)) := rfl

theorem run_accept_of_ne {c : Char} (h : s.chars[x.pos]? ≠ some c) :
    (s.accept c x).run = some (.ok (false, x)) := by
  rw [accept, run_bind_of_ok _ (run_peek s x), if_neg h]
  rfl

theorem next_of_accept {c : Char} (h : (s.accept c x).run = some (.ok (true, y))) :
    s.chars[x.pos]? = some c := by
  by_contra hne
  rw [run_accept_of_ne hne] at h
  cases h

/-- In front of a term the terms go on with it. -/
theorem run_scanTerms_of_starts (h : s.StartsTerm x) (terms : List Term) :
    (s.scanTerms terms x).run = ((do s.scanTerms ((← s.scanTerm) :: terms)) x).run := by
  obtain ⟨c, hc, hbar, hclose⟩ := h
  rw [scanTerms, run_bind_of_ok _ (run_peek s x)]
  refine congrArg (fun m : Scan Branch => (m x).run) ?_
  split
  · rename_i hnext
    rw [hc] at hnext
    cases hnext
  · rename_i hnext
    exact absurd (Option.some.inj (hc.symm.trans hnext)) hbar
  · rename_i hnext
    exact absurd (Option.some.inj (hc.symm.trans hnext)) hclose
  · rfl

theorem run_scanTerms_of_bar (h : s.chars[x.pos]? = some '|') (terms : List Term) :
    (s.scanTerms terms x).run = some (.ok (Branch.ofList terms.reverse, x)) := by
  rw [scanTerms, run_bind_of_ok _ (run_peek s x), h]
  rfl

/-- A group is read as an atom, behind its parenthesis as branches. -/
theorem run_scanTerm_of_opening {z : Spot} {opening : Opening}
    (hopen : s.chars[x.pos]? = some '(') (henter : (enter x).run = some (.ok ((), y)))
    (hkind : (s.scanOpening y).run = some (.ok (opening, z)))
    (hchoice : (s.scanChoice z).run = some (.error e)) : (s.scanTerm x).run = some (.error e) := by
  have hgroup : (s.scanGroup x).run = some (.error e) := by
    rw [scanGroup, run_bind_of_ok _ henter]
    apply run_bind_of_error
    rw [scanGroupBody, run_bind_of_ok _ (y := y) (by rfl), run_bind_of_ok _ hkind]
    exact run_bind_of_error _ hchoice
  have hatom : (s.scanAtom x).run = some (.error e) := by
    rw [scanAtom, run_bind_of_ok _ (run_peek s x), hopen]
    exact hgroup
  have hanchor : (s.anchorAhead x).run = some (.ok (none, x)) := by
    rw [anchorAhead, run_bind_of_ok _ (run_peek s x), hopen]
    rfl
  rw [scanTerm, run_bind_of_ok _ hanchor, run_bind_of_ok _ (run_lookingAt s _ x),
    run_bind_of_ok _ (run_lookingAt s _ x)]
  exact run_bind_of_error _ hatom

/-- What goes wrong at a place that reading comes to goes wrong with the pattern. -/
theorem Comes.run_scanPattern (h : s.Comes x)
    (hrest : ∀ terms, (s.scanRest terms x).run = some (.error e)) :
    (s.scanPattern {}).run = some (.error e) := by
  induction h with
  | start =>
    apply run_bind_of_error
    rw [scanChoice_eq]
    exact hrest []
  | @term _ _ t _ hx ht ih =>
    refine ih fun terms => ?_
    have hterms := run_scanTerms_of_starts hx terms
    rw [run_bind_of_ok _ ht] at hterms
    have hmore := hrest (t :: terms)
    rw [scanRest, run_bind, ← hterms] at hmore
    rw [scanRest, run_bind]
    exact hmore
  | bar h hbar ih =>
    refine ih fun terms => ?_
    rw [scanRest, run_bind_of_ok _ (run_scanTerms_of_bar (next_of_accept hbar) terms),
      run_bind_of_ok _ hbar]
    apply run_bind_of_error
    rw [scanChoice_eq]
    exact hrest []
  | opening h hopen henter hkind ih =>
    refine ih fun terms => ?_
    apply run_bind_of_error
    rw [run_scanTerms_of_starts ⟨'(', hopen, by decide, by decide⟩]
    apply run_bind_of_error
    refine run_scanTerm_of_opening hopen henter hkind ?_
    rw [scanChoice_eq]
    exact hrest []

/-- What goes wrong with the quantifier of an atom goes wrong with the pattern. -/
theorem BehindAtom.run_scanPattern (h : s.BehindAtom y)
    (hquantifier : (s.scanQuantifier y).run = some (.error e)) :
    (s.scanPattern {}).run = some (.error e) := by
  obtain ⟨x, atom, hcomes, hstarts, hanchor, hatom⟩ := h
  refine hcomes.run_scanPattern fun terms => ?_
  apply run_bind_of_error
  rw [run_scanTerms_of_starts hstarts]
  apply run_bind_of_error
  rw [scanTerm, run_bind_of_ok _ hanchor, run_bind_of_ok _ (run_lookingAt s _ x),
    run_bind_of_ok _ (run_lookingAt s _ x), run_bind_of_ok _ hatom]
  exact run_bind_of_error _ hquantifier

end PatternText

end UnitRegex
