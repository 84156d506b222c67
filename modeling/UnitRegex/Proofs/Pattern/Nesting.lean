import UnitRegex.Proofs.Pattern.Passes

/-!
How deeply parentheses nest in a text that has been read. The reader may open as many more as its
fuel says, so those that are open in front of it and the fuel stay within the limit.
-/

namespace UnitRegex

/-- The greatest number of parentheses that are open at a time, where `depth` of them are open in
front of the others. -/
def mostOpen (depth : Nat) : List Paren → Nat
  | [] => depth
  | .opening _ :: ps => mostOpen (depth + 1) ps
  | .closing :: ps => max depth (mostOpen (depth - 1) ps)

namespace Reader

variable {α β : Type} {s : Setting} {fuel : Nat} {chars rest : List Char}

/-- Behind parentheses that leave room for as many more as the fuel says, a reader only opens as
many as may be open at a time. -/
def Nests (s : Setting) (fuel : Nat) (m : Reader α) (chars : List Char) : Prop :=
  ∀ c a c', c.rest = chars → m s c = .ok (a, c') → ∀ depth, depth + fuel ≤ nestingLimit →
    mostOpen depth (parens false c'.rest) ≤ nestingLimit →
      mostOpen depth (parens false chars) ≤ nestingLimit

namespace Nests

theorem of_skims {P : α → Prop} {m : Reader α}
    (h : Skims s false m chars (parens false chars) P) : Nests s fuel m chars := by
  intro c a c' hc hrun depth _ hbehind
  rwa [(h c a c' hc hrun).1] at hbehind

theorem still {m : Reader α} (h : ∀ c a c', m s c = .ok (a, c') → c'.rest = c.rest) :
    Nests s fuel m chars := by
  intro c a c' hc hrun depth _ hbehind
  rwa [h c a c' hrun, hc] at hbehind

theorem pure {a : α} : Nests s fuel (Pure.pure a) chars :=
  still fun _ _ _ hrun => congrArg Cursor.rest (pure_eq_ok.mp hrun).2

theorem bind {m : Reader α} {f : α → Reader β} (hm : Nests s fuel m chars)
    (hf : ∀ a rest, Nests s fuel (f a) rest) : Nests s fuel (m >>= f) chars := by
  intro c b c' hc hrun depth hdepth hbehind
  obtain ⟨a, d, hma, hfa⟩ := bind_eq_ok.mp hrun
  exact hm c a d hc hma depth hdepth (hf a d.rest d b c' rfl hfa depth hdepth hbehind)

theorem read {f : Setting → Reader β} (h : Nests s fuel (f s) chars) :
    Nests s fuel (MonadReader.read >>= f) chars := by
  intro c b c' hc hrun
  obtain ⟨a, d, hread, hfa⟩ := bind_eq_ok.mp hrun
  cases hread
  exact h c b c' hc hfa

theorem get {f : Cursor → Reader β}
    (h : ∀ cursor : Cursor, cursor.rest = chars → Nests s fuel (f cursor) chars) :
    Nests s fuel (MonadState.get >>= f) chars := by
  intro c b c' hc hrun
  obtain ⟨a, d, hget, hfa⟩ := bind_eq_ok.mp hrun
  cases hget
  exact h c hc c b c' hc hfa

theorem moveTo {f : Unit → Reader β} (hchars : parens false chars = parens false rest)
    (h : Nests s fuel (f ()) rest) : Nests s fuel (Reader.moveTo rest >>= f) chars := by
  intro c b c' _ hrun depth hdepth hbehind
  obtain ⟨_, d, hmove, hfa⟩ := bind_eq_ok.mp hrun
  cases hmove
  rw [hchars]
  exact h _ b c' rfl hfa depth hdepth hbehind

theorem fail {fault : Fault} : Nests s fuel (Reader.fail fault : Reader α) chars :=
  of_skims (P := fun _ => True) .fail

end Nests

/-! ### Terms -/

section

variable {group : Reader Term} (hgroup : ∀ rest, Nests s fuel group ('(' :: rest))

include hgroup

theorem nests_readAtom (hchars : ∀ rest, chars ≠ ')' :: rest) :
    Nests s fuel (readAtom group) chars := by
  apply Nests.read
  apply Nests.get
  intro cursor hcursor
  rw [hcursor]
  split
  · exact hgroup _
  · exact .of_skims (skims_readClass _ _)
  · exact .of_skims (.moveTo (skims_readEscape _))
  · exact .moveTo (parens_plain (by decide)) .pure
  · exact .fail
  · exact .fail
  · exact .fail
  · rename_i c rest hleft hopen hslash _ _ _ _
    have hright : c ≠ ')' := by
      rintro rfl
      exact hchars rest rfl
    split
    · exact .fail
    · split
      · exact .fail
      · exact .moveTo (parens_outside hslash hopen hleft hright) .pure
  · exact .fail

theorem nests_readTerm (hchars : ∀ rest, chars ≠ ')' :: rest) :
    Nests s fuel (readTerm group) chars := by
  apply Nests.get
  intro cursor hcursor
  rw [hcursor]
  have hanchor (kind : Anchor) {rest : List Char} (h : parens false rest = parens false chars) :
      Nests s fuel (readAnchor kind rest) chars :=
    .of_skims (h ▸ skims_readAnchor kind chars rest)
  split
  · exact hanchor _ (parens_plain (by decide)).symm
  · exact hanchor _ (parens_plain (by decide)).symm
  · exact hanchor _ (parens_escape _ _).symm
  · exact hanchor _ (parens_escape _ _).symm
  · apply (nests_readAtom hgroup hchars).bind
    intro atom rest
    apply (Nests.of_skims (skims_readQuantifier rest)).bind
    intro repeats rest
    split
    · exact .pure
    · apply Nests.read
      split
      · exact .fail
      · exact .pure

theorem nests_readTerms (ahead : List Char) (terms : List Term) (chars : List Char) :
    Nests s fuel (readTerms group ahead terms) chars := by
  induction ahead generalizing terms chars with
  | nil => exact .pure
  | cons _ ahead ih =>
    apply Nests.get
    intro cursor hcursor
    rw [hcursor]
    split
    · exact .pure
    · exact .pure
    · exact .pure
    · rename_i hright
      exact (nests_readTerm hgroup fun rest => hright rest).bind fun t rest => ih _ rest

theorem nests_readBranches (ahead chars : List Char) :
    Nests s fuel (readBranches group ahead) chars := by
  induction ahead generalizing chars with
  | nil => exact .pure
  | cons _ ahead ih =>
    apply Nests.get
    intro cursor _
    apply (nests_readTerms hgroup _ [] chars).bind
    intro branch rest
    apply (Nests.of_skims (Skims.accept (by decide))).bind
    intro bar rest
    split
    · exact (ih rest).bind fun more rest => .pure
    · exact .pure

theorem nests_readChoice (chars : List Char) : Nests s fuel (readChoice group) chars :=
  .get fun _ _ => nests_readBranches hgroup _ chars

end

/-! ### Groups -/

section

variable {choice : Reader Choice} (hchoice : ∀ chars, Nests s fuel choice chars)

include hchoice

theorem nests_readLook (behind negated : Bool) (chars : List Char) :
    Nests s fuel (readLook choice behind negated) chars := by
  apply (hchoice chars).bind
  intro body rest
  dsimp only
  split
  · split
    · exact (Nests.of_skims (Skims.widenContext _)).bind fun _ _ => .pure
    · exact .pure
  · exact .pure

theorem nests_readGroupBody (chars : List Char) :
    Nests s fuel (readGroupBody choice) chars := by
  have hbare (capture : Option Nat) (chars : List Char) :
      Nests s fuel (do return Term.group capture none (← choice)) chars :=
    (hchoice chars).bind fun _ _ => .pure
  have hnumber (chars : List Char) : Nests s fuel newGroup chars :=
    .still fun c n c' hrun => by
      cases hrun
      rfl
  apply Nests.get
  intro cursor hcursor
  rw [hcursor]
  split
  · exact .moveTo (by simp [parens]) (hbare none _)
  · exact .moveTo (by simp [parens]) (nests_readLook hchoice _ _ _)
  · exact .moveTo (by simp [parens]) (nests_readLook hchoice _ _ _)
  · exact .moveTo (by simp [parens]) (nests_readLook hchoice _ _ _)
  · exact .moveTo (by simp [parens]) (nests_readLook hchoice _ _ _)
  · apply Nests.moveTo (by rw [parens_plain (by decide), parens_plain (by decide)])
    apply (Nests.of_skims (skims_readGroupName _)).bind
    intro name rest
    apply Nests.get
    intro cursor _
    split
    · exact .fail
    · apply (hnumber rest).bind
      intro n rest
      have hname : Nests s fuel
          (modify fun c : Cursor => { c with named := c.named ++ [(name, n)] }) rest :=
        .still fun c _ c' hrun => by
          cases hrun
          rfl
      exact hname.bind fun _ rest => hbare (some n) rest
  · exact .of_skims (P := fun _ => True) (.moveTo .fail)
  · exact (hnumber chars).bind fun n rest => hbare (some n) rest

end

/-- A group opens one more. -/
theorem nests_readGroup (fuel : Nat) (rest : List Char) :
    Nests s fuel (readGroup fuel) ('(' :: rest) := by
  induction fuel generalizing rest with
  | zero => exact .fail
  | succ fuel ih =>
    intro c t c' hc hrun depth hdepth hbehind
    obtain ⟨cursor, d, hget, hrun⟩ := bind_eq_ok.mp hrun
    cases hget
    obtain ⟨_, d, hdiscard, hrun⟩ := bind_eq_ok.mp hrun
    obtain rfl := eq_of_discard_accept hc hdiscard
    obtain ⟨body, d, hbody, hrun⟩ := bind_eq_ok.mp hrun
    obtain ⟨closed, d', hclose, hrun⟩ := bind_eq_ok.mp hrun
    rcases accept_eq_ok hclose with ⟨rfl, after, hafter, rfl⟩ | ⟨rfl, -, -⟩
    · obtain ⟨rfl, rfl⟩ := pure_eq_ok.mp hrun
      have hinner := nests_readGroupBody (nests_readChoice ih) rest _ _ _ rfl hbody (depth + 1)
        (by omega)
      rw [hafter, parens_closing, mostOpen] at hinner
      rw [parens_opening, mostOpen]
      exact hinner (Nat.max_le.mpr ⟨by omega, hbehind⟩)
    · cases hrun

end Reader

/-- In a pattern that is read, no more parentheses are open at a time than may be. -/
theorem Source.mostOpen_of_parse {s : Source} {p : Pattern} (h : s.parse = .ok p) :
    mostOpen 0 (parens false s.pattern.toList) ≤ nestingLimit := by
  unfold Source.parse at h
  dsimp only at h
  split at h
  · cases h
  · rename_i body cursor hrun
    obtain ⟨choice, d, hchoice, hrest⟩ := Reader.bind_eq_ok.mp hrun
    obtain ⟨_, d', hget, hrest⟩ := Reader.bind_eq_ok.mp hrest
    cases hget
    split at hrest
    · rename_i hempty
      apply Reader.nests_readChoice (Reader.nests_readGroup nestingLimit) _ _ _ _ rfl hchoice 0
        (Nat.le_of_eq (Nat.zero_add _))
      rw [List.isEmpty_iff.mp hempty]
      exact Nat.zero_le _
    · obtain ⟨_, _, -, hthrow⟩ := Reader.bind_eq_ok.mp hrest
      cases hthrow

example : mostOpen 0 (parens false "((?=a)[(]\\()(b)".toList) = 2 := by decide

end UnitRegex
