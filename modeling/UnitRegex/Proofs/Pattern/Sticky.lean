import UnitRegex.Proofs.Pattern.Parsed
import UnitRegex.Proofs.Search.Leftmost

/-!
The sticky flag. No reader looks at it, so a source with the flag and one without it have the same
tree, and the tree matches the same at any position.
-/

namespace UnitRegex

/-- The flags with another sticky flag. -/
def Flags.withSticky (f : Flags) (sticky : Bool) : Flags := { f with sticky := sticky }

def Setting.withSticky (s : Setting) (sticky : Bool) : Setting :=
  { s with flags := s.flags.withSticky sticky }

namespace Reader

variable {α β : Type}

/-- A reader that does not look at the sticky flag. -/
def Blind (m : Reader α) : Prop := ∀ s sticky c, m (s.withSticky sticky) c = m s c

namespace Blind

@[grind ←] theorem pure (a : α) : Blind (Pure.pure a) := fun _ _ _ => rfl

@[grind ←] theorem throw (e : Fault × Nat) : Blind (MonadExcept.throw e : Reader α) :=
  fun _ _ _ => rfl

@[grind ←] theorem get : Blind (MonadState.get : Reader Cursor) := fun _ _ _ => rfl

@[grind ←] theorem moveTo (rest : List Char) : Blind (Reader.moveTo rest) := fun _ _ _ => rfl

@[grind ←] theorem widenContext (units : Nat) : Blind (Reader.widenContext units) :=
  fun _ _ _ => rfl

@[grind ←] theorem newGroup : Blind Reader.newGroup := fun _ _ _ => rfl

theorem position : Blind Reader.position := fun _ _ _ => rfl

@[grind ←] theorem fail (fault : Fault) : Blind (Reader.fail fault : Reader α) := fun _ _ _ => rfl

@[grind ←] theorem bind {m : Reader α} {f : α → Reader β} (hm : m.Blind) (hf : ∀ a, (f a).Blind) :
    (m >>= f).Blind := by
  intro s sticky c
  show (m (s.withSticky sticky) c >>= fun r => f r.1 (s.withSticky sticky) r.2) =
    (m s c >>= fun r => f r.1 s r.2)
  rw [hm s sticky c]
  congr 1
  funext r
  exact hf r.1 s sticky r.2

/-- What is read of the setting is used without the sticky flag. -/
theorem read {f : Setting → Reader β} (hsame : ∀ s sticky, f (s.withSticky sticky) = f s)
    (hf : ∀ s, (f s).Blind) : (MonadReader.read >>= f).Blind := by
  intro s sticky c
  show f (s.withSticky sticky) (s.withSticky sticky) c = f s s c
  rw [hsame, hf]

theorem map {m : Reader α} {f : α → β} (hm : m.Blind) : Blind (f <$> m) :=
  hm.bind fun a => .pure (f a)

@[grind ←] theorem accept (c : Char) : Blind (Reader.accept c) := by
  unfold Reader.accept
  grind

end Blind

end Reader

open Reader

@[grind ←] theorem blind_readUnicodeEscape : readUnicodeEscape.Blind := by
  refine .read (fun _ _ => rfl) fun s => .bind .get fun c => ?_
  split
  · grind
  · split
    · grind
    · refine .bind (.moveTo _) fun _ => ?_
      split <;> grind

theorem blind_readCharacterEscape (inClass : Bool) : (readCharacterEscape inClass).Blind := by
  refine .read (fun _ _ => rfl) fun s => .bind .get fun c => ?_
  split
  · grind
  · refine .bind (.moveTo _) fun _ => ?_
    split <;> grind

@[grind ←] theorem blind_readGroupName : readGroupName.Blind := by
  unfold readGroupName
  grind

theorem blind_readDecimalEscape (chars : List Char) : (readDecimalEscape chars).Blind := by
  refine .read (fun _ _ => rfl) fun s => ?_
  grind

theorem blind_readNamedReference (chars : List Char) : (readNamedReference chars).Blind := by
  refine .bind (.moveTo _) fun _ => .bind (.accept _) fun opened => ?_
  split
  · exact .fail _
  · refine .bind blind_readGroupName fun name => .read (fun _ _ => rfl) fun s => ?_
    grind

theorem blind_readEscape : readEscape.Blind := by
  refine .read (fun _ _ => rfl) fun s => .bind .get fun c => ?_
  split
  · exact .fail _
  · split
    · exact blind_readDecimalEscape _
    · split
      · exact blind_readNamedReference _
      · refine .bind (blind_readCharacterEscape false) fun atom => ?_
        split <;> exact .pure _

theorem blind_readClassEscape : readClassEscape.Blind := by
  refine .read (fun _ _ => rfl) fun s => .bind .get fun c => ?_
  dsimp only
  split
  · grind
  · split
    · exact .fail _
    · refine .bind (blind_readCharacterEscape true) fun atom => ?_
      split
      · exact .fail _
      · exact .pure _

theorem blind_readClassAtom : readClassAtom.Blind := by
  refine .bind .get fun c => ?_
  split
  · exact .fail _
  · split
    · exact .bind (.moveTo _) fun _ => blind_readClassEscape
    · grind

theorem blind_readClassItems (opened fuel : Nat) (ranges : List Interval) :
    (readClassItems opened fuel ranges).Blind := by
  induction fuel generalizing ranges with
  | zero => exact .throw _
  | succ fuel ih =>
    refine .bind .get fun c => ?_
    split
    · grind
    · grind
    · refine .bind blind_readClassAtom fun low => .bind .get fun c' => ?_
      split
      · exact ih _
      · refine .bind (.map (.accept _)) fun _ => .bind blind_readClassAtom fun high => ?_
        split
        · grind
        · refine .read (fun _ _ => rfl) fun s => ?_
          grind

theorem blind_readClass (rest : List Char) : (readClass rest).Blind := by
  refine .read (fun _ _ => rfl) fun s => .bind .position fun opened => ?_
  refine .bind (.moveTo _) fun _ => .bind (.accept _) fun negated => .bind .get fun c => ?_
  exact .bind (blind_readClassItems _ _ _) fun ranges => .pure _

theorem blind_readBounds : readBounds.Blind := by
  refine .bind .get fun c => ?_
  split
  · grind
  · grind
  · grind
  · split
    · grind
    · refine .read (fun _ _ => rfl) fun s => ?_
      grind
  · grind

theorem blind_readQuantifier : readQuantifier.Blind := by
  refine .bind blind_readBounds fun bounds => ?_
  split
  · exact .pure _
  · exact .bind (.accept _) fun lazy => .pure _

theorem blind_readAnchor (kind : Anchor) (rest : List Char) : (readAnchor kind rest).Blind := by
  refine .bind (.moveTo _) fun _ => .read (fun _ _ => rfl) fun s => ?_
  grind

section

variable {group : Reader Term} (hgroup : group.Blind)
include hgroup

theorem blind_readAtom : (readAtom group).Blind := by
  refine .read (fun _ _ => rfl) fun s => .bind .get fun c => ?_
  split
  · exact hgroup
  · exact blind_readClass _
  · exact .bind (.moveTo _) fun _ => blind_readEscape
  all_goals grind

theorem blind_readTerm : (readTerm group).Blind := by
  refine .bind .get fun c => ?_
  split
  · exact blind_readAnchor _ _
  · exact blind_readAnchor _ _
  · exact blind_readAnchor _ _
  · exact blind_readAnchor _ _
  · refine .bind (blind_readAtom hgroup) fun atom => .bind blind_readQuantifier fun repeats => ?_
    split
    · grind
    · refine .read (fun _ _ => rfl) fun s => ?_
      grind

theorem blind_readTerms (ahead : List Char) (terms : List Term) :
    (readTerms group ahead terms).Blind := by
  induction ahead generalizing terms with
  | nil => exact .pure _
  | cons _ ahead ih =>
    refine .bind .get fun c => ?_
    split
    · exact .pure _
    · exact .pure _
    · exact .pure _
    · exact .bind (blind_readTerm hgroup) fun t => ih _

theorem blind_readBranches (ahead : List Char) : (readBranches group ahead).Blind := by
  induction ahead with
  | nil => exact .pure _
  | cons _ ahead ih =>
    refine .bind .get fun c => .bind (blind_readTerms hgroup _ _) fun branch => ?_
    refine .bind (.accept _) fun more => ?_
    split
    · exact .bind ih fun rest => .pure _
    · exact .pure _

theorem blind_readChoice : (readChoice group).Blind :=
  .bind .get fun _ => blind_readBranches hgroup _

end

section

variable {choice : Reader Choice} (hchoice : choice.Blind)
include hchoice

theorem blind_readLook (behind negated : Bool) : (readLook choice behind negated).Blind := by
  unfold readLook
  grind

theorem blind_readGroupBody : (readGroupBody choice).Blind := by
  have hnote : ∀ f : Cursor → Cursor, (modify f : Reader Unit).Blind := fun _ _ _ _ => rfl
  refine .bind .get fun c => ?_
  split
  · exact .bind (.moveTo _) fun _ => .bind hchoice fun body => .pure _
  · exact .bind (.moveTo _) fun _ => blind_readLook hchoice _ _
  · exact .bind (.moveTo _) fun _ => blind_readLook hchoice _ _
  · exact .bind (.moveTo _) fun _ => blind_readLook hchoice _ _
  · exact .bind (.moveTo _) fun _ => blind_readLook hchoice _ _
  · refine .bind (.moveTo _) fun _ => .bind blind_readGroupName fun name => .bind .get fun c => ?_
    split
    · exact .fail _
    · refine .bind .newGroup fun n => .bind (hnote _) fun _ => ?_
      exact .bind hchoice fun body => .pure _
  · exact .bind (.moveTo _) fun _ => .fail _
  · exact .bind .newGroup fun n => .bind hchoice fun body => .pure _

end

theorem blind_readGroup (depth : Nat) : (readGroup depth).Blind := by
  induction depth with
  | zero => exact .fail _
  | succ depth ih =>
    refine .bind .get fun c => .bind (.map (.accept _)) fun _ => ?_
    refine .bind (blind_readGroupBody (blind_readChoice ih)) fun t => ?_
    refine .bind (.accept _) fun closed => ?_
    split
    · exact .pure _
    · exact .read (fun _ _ => rfl) fun s => .throw _

theorem blind_readPattern : readPattern.Blind := by
  refine .bind (blind_readChoice (blind_readGroup _)) fun body => ?_
  grind

/-- The source with another sticky flag. -/
def Source.withSticky (s : Source) (sticky : Bool) : Source :=
  { s with flags := s.flags.withSticky sticky }

/-- The pattern with another sticky flag. -/
def Pattern.withSticky (p : Pattern) (sticky : Bool) : Pattern :=
  { p with flags := p.flags.withSticky sticky }

theorem Source.parse_withFlags (s : Source) (flags : Flags) :
    Source.parse { s with flags := flags } =
      match readPattern ⟨flags, s.pattern.toList.length, scanGroups s.pattern.toList⟩
        { rest := s.pattern.toList } with
      | .error (fault, position) => .error ⟨s.pattern, fault, position⟩
      | .ok (body, cursor) =>
        .ok ⟨body, flags, (scanGroups s.pattern.toList).count + 1, cursor.named, cursor.context⟩ :=
  rfl

/-- A source is read the same with another sticky flag. -/
theorem Source.parse_withSticky (s : Source) (sticky : Bool) :
    (s.withSticky sticky).parse = s.parse.map (·.withSticky sticky) := by
  have hread := blind_readPattern ⟨s.flags, s.pattern.toList.length, scanGroups s.pattern.toList⟩
    sticky { rest := s.pattern.toList }
  have hself : s.parse = _ := s.parse_withFlags s.flags
  have hother : (s.withSticky sticky).parse = _ := s.parse_withFlags (s.flags.withSticky sticky)
  rw [hself, hother]
  simp only [Setting.withSticky] at hread
  rw [hread]
  split <;> rfl

theorem Source.flags_of_parse {s : Source} {p : Pattern} (h : s.parse = .ok p) :
    p.flags = s.flags := by
  unfold parse at h
  dsimp only at h
  split at h
  · cases h
  · obtain rfl := Except.ok.inj h
    rfl

theorem Text.agree_withSticky (text : Text) (flags : Flags) (sticky : Bool) (i j length : Nat) :
    text.agree (flags.withSticky sticky) i j length = text.agree flags i j length := by
  induction length generalizing i j with
  | zero => rfl
  | succ length ih =>
    rw [agree, agree, ih]
    rfl

theorem Text.readGroup_withSticky (text : Text) (flags : Flags) (sticky : Bool) (slots : Slots)
    (group cursor : Nat) (d : Direction) :
    text.readGroup (flags.withSticky sticky) slots group cursor d =
      text.readGroup flags slots group cursor d := by
  cases d <;> simp only [readGroup, agree_withSticky]

section

variable (flags : Flags) (sticky : Bool) (text : Text)

mutual

/-- What a term matches does not depend on the sticky flag. -/
theorem Term.outcomes_withSticky (d : Direction) (t : Term) :
    t.outcomes (flags.withSticky sticky) text d = t.outcomes flags text d := by
  match t with
  | .unit _ => rfl
  | .anchor _ => rfl
  | .backReference group =>
    funext x
    simp only [Term.outcomes, Text.readGroup_withSticky]
  | .look behind negated body =>
    simp only [Term.outcomes, body.outcomes_withSticky (.ofLook behind)]
  | .group capture none body => simp only [Term.outcomes, body.outcomes_withSticky d]
  | .group capture (some q) body => simp only [Term.outcomes, body.outcomes_withSticky d]

theorem Branch.outcomes_withSticky (d : Direction) (b : Branch) :
    b.outcomes (flags.withSticky sticky) text d = b.outcomes flags text d := by
  match b with
  | .nil => rfl
  | .cons t rest =>
    cases d <;>
      simp only [Branch.outcomes, t.outcomes_withSticky, rest.outcomes_withSticky]

theorem Choice.outcomes_withSticky (d : Direction) (c : Choice) :
    c.outcomes (flags.withSticky sticky) text d = c.outcomes flags text d := by
  match c with
  | .one b => simp only [Choice.outcomes, b.outcomes_withSticky d]
  | .more b rest =>
    simp only [Choice.outcomes, b.outcomes_withSticky d, rest.outcomes_withSticky d]

end

end

theorem Pattern.matchAt?_withSticky (p : Pattern) (sticky : Bool) (text : Text) (i : Nat) :
    (p.withSticky sticky).matchAt? text i = p.matchAt? text i := by
  have houtcomes : (p.withSticky sticky).outcomes text = p.outcomes text :=
    p.root.outcomes_withSticky p.flags sticky text .forward
  rw [matchAt?, matchAt?, houtcomes]
  rfl

/-- A sticky pattern matches at the start of the search or nowhere. -/
theorem Pattern.leftmost?_withSticky (p : Pattern) (text : Text) (start : Nat) :
    (p.withSticky true).leftmost? text start = p.matchAt? text start := by
  have hsticky : (p.withSticky true).flags.sticky = true := rfl
  have hattempts : Nfa.attempts start text.size true start = [start] := by simp [Nfa.attempts]
  rw [leftmost?, hsticky, hattempts, List.findSome?_singleton, matchAt?_withSticky]

end UnitRegex
