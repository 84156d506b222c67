import UnitRegex.Proofs.Pattern.ScannedAtoms

/-!
Terms, branches and groups. Each scanner follows the reader of the same part of a pattern, and a
term consumes something wherever it is read. The number of open parentheses that the scanner counts,
and the number that the reader may still open, have the limit for their sum.
-/

namespace UnitRegex

/-- Whether a look-behind is next. -/
def startsLookBehind (chars : List Char) : Bool :=
  ['(', '?', '<', '='].isPrefixOf chars || ['(', '?', '<', '!'].isPrefixOf chars

theorem startsLookBehind_eq_false {chars : List Char}
    (h : ∀ rest, chars ≠ '(' :: '?' :: '<' :: '=' :: rest)
    (h' : ∀ rest, chars ≠ '(' :: '?' :: '<' :: '!' :: rest) : startsLookBehind chars = false := by
  apply Bool.eq_false_iff.mpr
  intro hstarts
  rcases Bool.or_eq_true_iff.mp hstarts with hfront | hfront
  · obtain ⟨rest, hrest⟩ := List.isPrefixOf_iff_prefix.mp hfront
    exact h rest hrest.symm
  · obtain ⟨rest, hrest⟩ := List.isPrefixOf_iff_prefix.mp hfront
    exact h' rest hrest.symm

theorem isLookBehind_of_isLook {t : Term} (h : t.isLook = false) : t.isLookBehind = false := by
  cases t with
  | look behind negated body => cases h
  | _ => rfl

namespace PatternText

variable {s : PatternText} {depth : Nat} {chars rest : List Char}

/-! ### Quantifiers -/

theorem steps_atQuantifier (chars : List Char) :
    s.Steps chars s.atQuantifier (startsQuantifier chars) chars := by
  unfold startsQuantifier
  split
  · exact Steps.peek.bind (.pure _)
  · exact Steps.peek.bind (.pure _)
  · exact Steps.peek.bind (.pure _)
  · rename_i rest
    apply Steps.peek.bind
    apply steps_scanBraces.bind
    rw [Option.isSome_map]
    exact .pure _
  · rename_i hstar hplus hquestion hbrace
    apply Steps.peek.bind
    split
    · rename_i hhead
      exact absurd hhead (head?_ne_some hstar)
    · rename_i hhead
      exact absurd hhead (head?_ne_some hplus)
    · rename_i hhead
      exact absurd hhead (head?_ne_some hquestion)
    · rename_i hhead
      exact absurd hhead (head?_ne_some hbrace)
    · exact .pure _

/-- The last of the characters in braces is consumed later. -/
theorem steps_move_braces {α : Type} {after : List Char} (h : after <:+ rest) (a : α) :
    s.Steps ('{' :: rest) (do s.move (rest.length - after.length); s.move 1; return a) a
      after := by
  have hle := h.length_le
  have hdrop : (('{' :: rest).drop (rest.length - after.length)).drop 1 = after := by
    rw [List.drop_drop, List.drop_succ_cons]
    exact (List.suffix_iff_eq_drop.mp h).symm
  have hlast : 1 ≤ (('{' :: rest).drop (rest.length - after.length)).length := by
    rw [List.length_drop, List.length_cons]
    omega
  have hmove := Steps.move (s := s) 1 hlast
  rw [hdrop] at hmove
  apply (Steps.move _ (by rw [List.length_cons]; omega)).bind
  exact hmove.bind (.pure a)

/-- A quantifier of one character. -/
theorem follows_symbol {x : Char} {bounds : Nat × Option Nat} {c : Cursor}
    (h : s.Steps (x :: rest) s.scanBoundsFront (some bounds) (x :: rest)) :
    s.Follows depth (x :: rest) c s.scanBounds (do Reader.moveTo rest; return some bounds)
      fun _ left => left ≤ (x :: rest).length := by
  apply Follows.step h
  exact .moveTo (.done (Steps.moveOne.bind (.pure _)) (Nat.le_succ _))

theorem steps_scanBoundsFront_none (hstar : ∀ rest, chars ≠ '*' :: rest)
    (hplus : ∀ rest, chars ≠ '+' :: rest) (hquestion : ∀ rest, chars ≠ '?' :: rest)
    (hbrace : ∀ rest, chars ≠ '{' :: rest) : s.Steps chars s.scanBoundsFront none chars := by
  apply Steps.peek.bind
  split
  · rename_i hhead
    exact absurd hhead (head?_ne_some hstar)
  · rename_i hhead
    exact absurd hhead (head?_ne_some hplus)
  · rename_i hhead
    exact absurd hhead (head?_ne_some hquestion)
  · rename_i hhead
    exact absurd hhead (head?_ne_some hbrace)
  · exact .pure _

/-- The scanner keeps the last character of the bounds for later. -/
theorem tracks_scanBounds (chars : List Char) :
    s.Tracks depth chars s.scanBounds readBounds fun _ left => left ≤ chars.length := by
  intro cursor
  apply Follows.get
  dsimp only
  split
  · exact follows_symbol (Steps.peek.bind (.pure _))
  · exact follows_symbol (Steps.peek.bind (.pure _))
  · exact follows_symbol (Steps.peek.bind (.pure _))
  · rename_i rest
    unfold scanBounds scanBoundsFront
    rw [bind_assoc]
    apply Follows.step Steps.peek
    show s.Follows _ _ _ ((s.scanBraces >>= _) >>= _) _ _
    rw [bind_assoc]
    apply Follows.step steps_scanBraces
    cases hbraces : readBraces? rest with
    | none =>
      apply Follows.read
      dsimp only [Option.map_none, setting]
      split
      · exact Tracks.fail cursor
      · exact .done (.pure _) (Nat.le_refl _)
    | some x =>
      obtain ⟨⟨low, high⟩, after⟩ := x
      dsimp only [Option.map_some]
      split
      · exact Tracks.fail cursor
      · have hafter := suffix_of_readBraces? hbraces
        have hle := hafter.length_le
        have hlength : rest.length + 1 - after.length - 1 = rest.length - after.length := by omega
        have hminus : s.Steps ('{' :: rest) (Scan.minus (rest.length + 1 - after.length) 1)
            (rest.length - after.length) ('{' :: rest) := by
          rw [← hlength]
          exact .minus (by omega)
        simp only [bind_assoc]
        apply Follows.step hminus
        apply Follows.moveTo
        exact .done (steps_move_braces hafter _) (Nat.le_succ_of_le hle)
  · rename_i hstar hplus hquestion hbrace
    apply Follows.step (steps_scanBoundsFront_none hstar hplus hquestion hbrace)
    exact .done (.pure _) (Nat.le_refl _)

theorem tracks_scanQuantifier (chars : List Char) :
    s.Tracks depth chars s.scanQuantifier readQuantifier fun _ left => left ≤ chars.length := by
  apply (tracks_scanBounds chars).bind
  intro bounds rest hrest
  cases bounds with
  | none => exact .pure hrest
  | some x =>
    apply (Tracks.accept '?').bind
    intro lazy after hafter
    apply Tracks.pure
    cases lazy with
    | true => exact Nat.le_trans (Nat.le_of_lt (hafter.1 rfl)) hrest
    | false => exact Nat.le_trans (Nat.le_of_eq (hafter.2 rfl)) hrest

/-! ### Terms -/

theorem tracks_scanAnchor {kind : Anchor} (hlt : rest.length < chars.length)
    (hmove : s.Steps chars (s.move (if kind = .caret ∨ kind = .dollar then 1 else 2)) () rest) :
    s.Tracks depth chars (s.scanAnchor kind) (readAnchor kind rest) fun _ left =>
      left < chars.length := by
  have hrest : s.Tracks depth rest
      (do if ← s.atQuantifier then Scan.fail .nothingToRepeat else return Term.anchor kind)
      (if startsQuantifier rest then Reader.fail .nothingToRepeat else return Term.anchor kind)
      fun _ left => left < chars.length :=
    .step (steps_atQuantifier rest) (.ite (fun _ => .fail) fun _ => .pure hlt)
  intro cursor
  apply Follows.step hmove
  apply Follows.moveTo
  apply Follows.read
  apply Tracks.moved
  exact .ite (fun _ => .widenContext hrest) fun _ => hrest

/-- An atom that is no group consumes something and is no assertion. -/
theorem tracks_scanLeaf (group : Reader Term) (hchars : ∀ rest, chars ≠ '(' :: rest) :
    s.Tracks depth chars s.scanLeaf (readAtom group) fun t left =>
      left < chars.length ∧ t.isLook = false := by
  apply Tracks.read
  intro cursor
  apply Follows.get
  dsimp only
  split
  · exact absurd rfl (hchars _)
  · rename_i rest
    apply Follows.step Steps.peek
    exact (tracks_scanClass rest).moved |>.imp fun _ _ h => ⟨Nat.lt_succ_of_le h.1, h.2⟩
  · rename_i rest
    apply Follows.step Steps.peek
    exact (tracks_scanEscape rest).moved |>.imp fun _ _ h => ⟨Nat.lt_succ_of_le h.1, h.2⟩
  · apply Follows.step Steps.peek
    exact .moveTo (.done (Steps.moveOne.bind (.pure _)) ⟨Nat.lt_succ_self _, rfl⟩)
  · apply Follows.step Steps.peek
    exact Tracks.fail cursor
  · apply Follows.step Steps.peek
    exact Tracks.fail cursor
  · apply Follows.step Steps.peek
    exact Tracks.fail cursor
  · rename_i c rest _ _ _ _ _ _ _
    apply Follows.step Steps.peek
    dsimp only [List.head?_cons]
    split
    any_goals contradiction
    have hrest (braces : Option ((Nat × Option Nat) × Nat))
        (hbraces : braces.isSome = (c == '{' && (readBraces? rest).isSome)) :
        s.Follows depth (c :: rest) { cursor with rest := c :: rest }
          (if braces.isSome then Scan.fail .nothingToRepeat
            else if s.flags.unicode && (c == '{' || c == '}' || c == ']') then
              Scan.fail .loneQuantifierBracket
            else do
              s.move 1
              s.scanLiteral c.toNat)
          (if c == '{' && (readBraces? rest).isSome then Reader.fail .nothingToRepeat
            else if s.flags.unicode && (c == '{' || c == '}' || c == ']') then
              Reader.fail .loneQuantifierBracket
            else do
              Reader.moveTo rest
              return s.flags.literalTerm c.toNat)
          fun t left => left < (c :: rest).length ∧ t.isLook = false := by
      rw [hbraces]
      refine .ite (fun _ => Tracks.fail cursor) fun _ => ?_
      refine .ite (fun _ => Tracks.fail cursor) fun _ => ?_
      exact .moveTo (.done (Steps.moveOne.bind (steps_scanLiteral _))
        ⟨Nat.lt_succ_self _, isLook_literalTerm _ _⟩)
    by_cases hbrace : c = '{'
    · subst hbrace
      exact .step steps_scanBraces (hrest _ Option.isSome_map)
    · rw [if_neg hbrace]
      exact .step (.pure none) (hrest none (by simp [hbrace]))
  · apply Follows.step Steps.peek
    exact Tracks.fail cursor

theorem steps_anchorAhead_none (hcaret : ∀ rest, chars ≠ '^' :: rest)
    (hdollar : ∀ rest, chars ≠ '$' :: rest) (hbound : ∀ rest, chars ≠ '\\' :: 'b' :: rest)
    (hnot : ∀ rest, chars ≠ '\\' :: 'B' :: rest) :
    s.Steps chars s.anchorAhead none chars := by
  apply Steps.peek.bind
  split
  · rename_i hhead
    exact absurd hhead (head?_ne_some hcaret)
  · rename_i hhead
    exact absurd hhead (head?_ne_some hdollar)
  · rename_i hhead
    obtain ⟨rest, rfl⟩ := List.head?_eq_some_iff.mp hhead
    apply (Steps.peekAt 1).bind
    rw [List.getElem?_cons_succ, ← List.head?_eq_getElem?]
    have hb : rest.head? ≠ some 'b' := head?_ne_some fun more hmore => hbound more (by rw [hmore])
    have hB : rest.head? ≠ some 'B' := head?_ne_some fun more hmore => hnot more (by rw [hmore])
    rw [if_neg hb, if_neg hB]
    exact .pure _
  · exact .pure _

theorem tracks_scanTerm_anchor {kind : Anchor}
    (hahead : s.Steps chars s.anchorAhead (some kind) chars) (hlt : rest.length < chars.length)
    (hmove : s.Steps chars (s.move (if kind = .caret ∨ kind = .dollar then 1 else 2)) () rest) :
    s.Tracks depth chars s.scanTerm (readAnchor kind rest) fun _ left => left < chars.length := by
  rw [scanTerm]
  exact .step hahead (tracks_scanAnchor hlt hmove)

section

variable {group : Reader Term}
  (hgroup : ∀ rest, s.Tracks depth ('(' :: rest) s.scanGroup group fun t left =>
    left < rest.length + 1 ∧ t.isLookBehind = startsLookBehind ('(' :: rest))

include hgroup

theorem tracks_scanAtom (chars : List Char) :
    s.Tracks depth chars s.scanAtom (readAtom group) fun t left =>
      left < chars.length ∧ t.isLookBehind = startsLookBehind chars := by
  rw [scanAtom]
  by_cases hopen : ∃ rest, chars = '(' :: rest
  · obtain ⟨rest, rfl⟩ := hopen
    apply Tracks.step Steps.peek
    apply Tracks.read
    apply Tracks.get
    intro c hc
    rw [hc]
    exact (hgroup rest).follows hc
  · have hchars (rest : List Char) : chars ≠ '(' :: rest := fun h => hopen ⟨rest, h⟩
    apply Tracks.step Steps.peek
    split
    · rename_i hhead
      exact absurd hhead (head?_ne_some hchars)
    · apply (tracks_scanLeaf group hchars).imp
      rintro t left ⟨hlt, hlook⟩
      refine ⟨hlt, ?_⟩
      rw [startsLookBehind_eq_false (fun _ => hchars _) fun _ => hchars _,
        isLookBehind_of_isLook hlook]

/-- Every term consumes something. -/
theorem tracks_scanTerm (chars : List Char) :
    s.Tracks depth chars s.scanTerm (readTerm group) fun _ left => left < chars.length := by
  intro cursor
  apply Follows.get
  dsimp only
  split
  · exact (tracks_scanTerm_anchor (Steps.peek.bind (.pure _)) (Nat.lt_succ_self _)
      Steps.moveOne).moved
  · exact (tracks_scanTerm_anchor (Steps.peek.bind (.pure _)) (Nat.lt_succ_self _)
      Steps.moveOne).moved
  · rename_i rest
    have hahead : s.Steps ('\\' :: 'b' :: rest) s.anchorAhead (some .wordBoundary)
        ('\\' :: 'b' :: rest) := Steps.peek.bind ((Steps.peekAt 1).bind (.pure _))
    have hmove : s.Steps ('\\' :: 'b' :: rest) (s.move 2) () rest := Steps.move 2 (by simp)
    exact (tracks_scanTerm_anchor hahead (Nat.lt_succ_of_lt (Nat.lt_succ_self _)) hmove).moved
  · rename_i rest
    have hahead : s.Steps ('\\' :: 'B' :: rest) s.anchorAhead (some .notWordBoundary)
        ('\\' :: 'B' :: rest) := Steps.peek.bind ((Steps.peekAt 1).bind (.pure _))
    have hmove : s.Steps ('\\' :: 'B' :: rest) (s.move 2) () rest := Steps.move 2 (by simp)
    exact (tracks_scanTerm_anchor hahead (Nat.lt_succ_of_lt (Nat.lt_succ_self _)) hmove).moved
  · rename_i hcaret hdollar hbound hnot
    rw [scanTerm]
    apply Follows.step (steps_anchorAhead_none hcaret hdollar hbound hnot)
    apply Follows.step (Steps.lookingAt _)
    apply Follows.step (Steps.lookingAt _)
    apply Tracks.moved
    apply (tracks_scanAtom hgroup chars).bind
    rintro atom rest ⟨hlt, hbehind⟩
    apply (tracks_scanQuantifier rest).bind
    intro quantifier after hafter
    have hleft : after.length < chars.length := Nat.lt_of_le_of_lt hafter hlt
    cases quantifier with
    | none => exact .pure hleft
    | some q =>
      apply Tracks.read
      rw [hbehind]
      exact .ite (fun _ => .fail) fun _ => .pure hleft

theorem tracks_scanTerms (ahead : List Char) (terms : List Term) (chars : List Char)
    (hahead : chars.length ≤ ahead.length) :
    s.Tracks depth chars (s.scanTerms terms) (readTerms group ahead terms) fun _ left =>
      left ≤ chars.length := by
  induction ahead generalizing terms chars with
  | nil =>
    obtain rfl := List.eq_nil_of_length_eq_zero (Nat.le_zero.mp hahead)
    rw [scanTerms]
    exact .step Steps.peek (.pure (Nat.le_refl _))
  | cons c ahead ih =>
    intro cursor
    apply Follows.get
    dsimp only
    split
    · rw [scanTerms]
      exact .step Steps.peek (.done (.pure _) (Nat.le_refl _))
    · rw [scanTerms]
      exact .step Steps.peek (.done (.pure _) (Nat.le_refl _))
    · rw [scanTerms]
      exact .step Steps.peek (.done (.pure _) (Nat.le_refl _))
    · rename_i hempty hbar hclose
      rw [scanTerms]
      apply Follows.step Steps.peek
      split
      · rename_i hhead
        exact absurd (List.head?_eq_none_iff.mp hhead) hempty
      · rename_i hhead
        exact absurd hhead (head?_ne_some hbar)
      · rename_i hhead
        exact absurd hhead (head?_ne_some hclose)
      · apply Tracks.moved
        apply (tracks_scanTerm hgroup chars).bind
        intro t rest hlt
        rw [List.length_cons] at hahead
        apply (ih (t :: terms) rest (by omega)).imp
        intro _ left hle
        omega

theorem tracks_scanBranches (ahead chars : List Char) (hahead : chars.length < ahead.length) :
    s.Tracks depth chars s.scanChoice (readBranches group ahead) fun _ left =>
      left ≤ chars.length := by
  induction ahead generalizing chars with
  | nil => exact absurd hahead (Nat.not_lt_zero _)
  | cons d ahead ih =>
    rw [List.length_cons] at hahead
    rw [scanChoice]
    apply Tracks.get
    rintro c rfl
    apply Tracks.moved
    apply (tracks_scanTerms hgroup _ [] c.rest (Nat.le_refl _)).bind
    intro branch rest hrest
    apply (Tracks.accept '|').bind
    intro found after hafter
    cases found with
    | false => exact .pure (Nat.le_trans (Nat.le_of_eq (hafter.2 rfl)) hrest)
    | true =>
      have hlt := hafter.1 rfl
      apply (ih after (by omega)).bind
      intro more behind hbehind
      exact .pure (by omega)

theorem tracks_scanChoice (chars : List Char) :
    s.Tracks depth chars s.scanChoice (readChoice group) fun _ left => left ≤ chars.length := by
  apply Tracks.get
  rintro c rfl
  exact (tracks_scanBranches hgroup _ c.rest (Nat.lt_succ_self _)).moved

end

/-- The reader behind an opening. -/
def Opening.reader (body : Reader Choice) : Opening → Reader Term
  | .plain => return .group none none (← body)
  | .capture n => return .group (some n) none (← body)
  | .look behind negated => readLook body behind negated

def Opening.isLookBehind : Opening → Bool
  | .look behind _ => behind
  | _ => false

/-- A parenthesis and a question mark are consumed first. -/
theorem follows_behindQuestion {P : Term → Nat → Prop} {c : Cursor} {k : Opening → Scan Term}
    {r : Reader Term} (h : s.Follows depth rest c (s.scanKind >>= k) r P) :
    s.Follows depth ('(' :: '?' :: rest) c (s.scanOpening >>= k) r P := by
  unfold scanOpening
  rw [bind_assoc]
  apply Follows.step Steps.moveOne
  rw [bind_assoc]
  exact .step Steps.accept h

/-- An angle bracket starts a name unless it belongs to a look-behind. -/
theorem follows_behindAngle {P : Term → Nat → Prop} {c : Cursor} {k : Opening → Scan Term}
    {r : Reader Term} (heq : ∀ more, rest ≠ '=' :: more) (hbang : ∀ more, rest ≠ '!' :: more)
    (h : s.Follows depth rest c (s.scanNamedCapture >>= k) r P) :
    s.Follows depth ('(' :: '?' :: '<' :: rest) c (s.scanOpening >>= k) r P := by
  have hnext : ¬(rest.head? = some '=' ∨ rest.head? = some '!') :=
    not_or.mpr ⟨head?_ne_some heq, head?_ne_some hbang⟩
  apply follows_behindQuestion
  unfold scanKind
  rw [bind_assoc]
  apply Follows.step Steps.advance
  show s.Follows _ _ _ ((s.peek >>= _) >>= _) _ _
  rw [bind_assoc]
  apply Follows.step Steps.peek
  rw [if_neg hnext]
  exact h

section

variable {choice : Scan Choice} {body : Reader Choice}
  (hchoice : ∀ chars, s.Tracks depth chars choice body fun _ left => left ≤ chars.length)

include hchoice

theorem tracks_term (opening : Opening) (chars : List Char) :
    s.Tracks depth chars (choice >>= opening.term) (opening.reader body) fun t left =>
      left ≤ chars.length ∧ t.isLookBehind = opening.isLookBehind := by
  cases opening with
  | plain =>
    apply (hchoice chars).bind
    exact fun _ _ h => .pure ⟨h, rfl⟩
  | capture n =>
    apply (hchoice chars).bind
    exact fun _ _ h => .pure ⟨h, rfl⟩
  | look behind negated =>
    apply (hchoice chars).bind
    intro body rest h
    cases behind with
    | false => exact .pure ⟨h, rfl⟩
    | true =>
      unfold Opening.term
      cases body.soleSequence? with
      | none => exact .pure ⟨h, rfl⟩
      | some sets => exact .widenContext (.pure ⟨h, rfl⟩)

/-- A capture whose name is new is read like one without a name. -/
theorem tracks_scanNamedCapture (chars : List Char) :
    s.Tracks depth chars (do choice >>= (← s.scanNamedCapture).term)
      (do
        let name ← readGroupName
        if (← get).named.any (·.1 == name) then Reader.fail .duplicateGroupName
        else
          let n ← Reader.newGroup
          modify fun c => { c with named := c.named ++ [(name, n)] }
          return .group (some n) none (← body))
      fun t left => left ≤ chars.length ∧ t.isLookBehind = false := by
  unfold scanNamedCapture
  rw [bind_assoc]
  apply (tracks_scanGroupName chars).bind
  intro name rest hrest
  rw [bind_assoc]
  intro cursor
  apply Follows.named
  dsimp only [spot]
  split
  · rw [Scan.fail_bind]
    exact Tracks.fail cursor
  · rw [bind_assoc]
    apply Tracks.moved
    apply Tracks.newGroup
    intro n cursor
    rw [bind_assoc]
    apply Follows.addName
    apply ((tracks_term hchoice (.capture n) rest).follows rfl).imp
    exact fun _ _ h => ⟨Nat.le_trans h.1 hrest, h.2⟩

/-- A group whose kind is told by one or two characters. -/
theorem follows_kind (opening : Opening) {after : List Char} {c : Cursor}
    (hle : after.length ≤ rest.length)
    (hbehind : opening.isLookBehind = startsLookBehind ('(' :: '?' :: rest))
    (hkind : s.Steps rest s.scanKind opening after) :
    s.Follows depth ('(' :: '?' :: rest) { c with rest := after }
      (do choice >>= (← s.scanOpening).term) (opening.reader body)
      fun t left =>
        left < rest.length + 2 ∧ t.isLookBehind = startsLookBehind ('(' :: '?' :: rest) := by
  apply follows_behindQuestion
  apply Follows.step hkind
  apply ((tracks_term hchoice opening after).moved).imp
  intro t left h
  exact ⟨by omega, by rw [h.2, hbehind]⟩

/-- What follows a parenthesis tells whether it opens a look-behind. -/
theorem tracks_scanOpening (rest : List Char) :
    s.Tracks depth ('(' :: rest) (do choice >>= (← s.scanOpening).term)
      (do
        discard <| Reader.accept '('
        readGroupBody body)
      fun t left => left < rest.length + 1 ∧ t.isLookBehind = startsLookBehind ('(' :: rest) := by
  intro cursor
  apply Follows.skip rfl
  apply Follows.get
  dsimp only
  split
  · apply Follows.moveTo
    apply follows_kind hchoice .plain (Nat.le_succ _) rfl
    exact Steps.advance.bind (.pure _)
  · apply Follows.moveTo
    apply follows_kind hchoice (.look false false) (Nat.le_succ _) rfl
    exact Steps.advance.bind (.pure _)
  · apply Follows.moveTo
    apply follows_kind hchoice (.look false true) (Nat.le_succ _) rfl
    exact Steps.advance.bind (.pure _)
  · apply Follows.moveTo
    apply follows_kind hchoice (.look true false) (Nat.le_add_right _ 2) rfl
    exact Steps.advance.bind (Steps.peek.bind (Steps.moveOne.bind (.pure _)))
  · apply Follows.moveTo
    apply follows_kind hchoice (.look true true) (Nat.le_add_right _ 2) rfl
    exact Steps.advance.bind (Steps.peek.bind (Steps.moveOne.bind (.pure _)))
  · rename_i after heq hbang
    have hbehind : startsLookBehind ('(' :: '?' :: '<' :: after) = false :=
      startsLookBehind_eq_false (by simpa using heq) (by simpa using hbang)
    rw [hbehind]
    apply Follows.moveTo
    apply follows_behindAngle heq hbang
    apply ((tracks_scanNamedCapture hchoice after).moved).imp
    exact fun _ _ h => ⟨Nat.lt_add_right 2 (Nat.lt_succ_of_le h.1), h.2⟩
  · rename_i after hcolon heq hbang hbehind hnotBehind hname
    apply Follows.moveTo
    apply follows_behindQuestion
    unfold scanKind
    rw [bind_assoc]
    cases after with
    | nil =>
      apply Follows.step Steps.advance_nil
      exact Tracks.fail cursor
    | cons x more =>
      apply Follows.step Steps.advance
      split
      · rename_i hx
        exact absurd (by rw [Option.some.inj hx]) (hcolon more)
      · rename_i hx
        exact absurd (by rw [Option.some.inj hx]) (heq more)
      · rename_i hx
        exact absurd (by rw [Option.some.inj hx]) (hbang more)
      · rename_i hx
        exact absurd (by rw [Option.some.inj hx]) (hname more)
      · exact Tracks.fail cursor
  · rename_i hcolon heq hbang hbehind hnotBehind hname hquestion
    have hplain : startsLookBehind ('(' :: rest) = false :=
      startsLookBehind_eq_false (by simpa using hbehind) (by simpa using hnotBehind)
    unfold scanOpening
    rw [bind_assoc, hplain]
    apply Follows.step Steps.moveOne
    rw [bind_assoc]
    apply Follows.step (Steps.accept_not hquestion)
    show s.Follows _ _ _ ((Scan.newGroup >>= _) >>= _) _ _
    rw [bind_assoc]
    apply Tracks.moved
    apply Tracks.newGroup
    intro n
    apply (tracks_term hchoice (.capture n) rest).imp
    exact fun _ _ h => ⟨Nat.lt_succ_of_le h.1, h.2⟩

end

/-- A group may open as long as not too many are open already. -/
theorem tracks_scanGroup (fuel : Nat) (hdepth : depth + fuel = nestingLimit) (rest : List Char) :
    s.Tracks depth ('(' :: rest) s.scanGroup (readGroup fuel) fun t left =>
      left < rest.length + 1 ∧ t.isLookBehind = startsLookBehind ('(' :: rest) := by
  induction fuel generalizing depth rest with
  | zero =>
    obtain rfl : depth = nestingLimit := hdepth
    rw [scanGroup]
    exact .full
  | succ fuel ih =>
    have hnested : depth + 1 + fuel = nestingLimit := by omega
    have hchoice := tracks_scanChoice (ih hnested)
    have hclose :=
      (tracks_scanOpening hchoice rest).bind
        (f := fun t => do
          if ← s.accept ')' then return t
          else throw (.unterminatedGroup, s.chars.size - ('(' :: rest).length))
        (g := fun t => do
          if ← Reader.accept ')' then return t
          else throw (.unterminatedGroup, (← read).length - ('(' :: rest).length))
        (Q := fun t left =>
          left < rest.length + 1 ∧ t.isLookBehind = startsLookBehind ('(' :: rest))
        (by
          rintro t after ⟨hlt, hbehind⟩
          apply (Tracks.accept ')').bind
          intro found behind hlen
          cases found with
          | true => exact .pure ⟨Nat.lt_trans (hlen.1 rfl) hlt, hbehind⟩
          | false => exact .read fun _ => .throw (Nat.sub_le _ _))
    simp only [bind_assoc] at hclose
    rw [scanGroup]
    apply Tracks.nested (by omega)
    rw [scanGroupBody]
    intro cursor
    apply Follows.step Steps.position
    apply Follows.get
    exact hclose cursor

/-- A pattern is read to its end. -/
theorem tracks_scanPattern (chars : List Char) :
    s.Tracks 0 chars s.scanPattern readPattern fun _ left => left = 0 := by
  have hgroup (rest : List Char) := tracks_scanGroup (s := s) nestingLimit (Nat.zero_add _) rest
  apply (tracks_scanChoice hgroup chars).bind
  intro body rest _ cursor
  apply Follows.of_suffix
  intro hrest
  apply Follows.step Steps.position
  apply Follows.get
  have hle := length_le hrest
  cases rest with
  | nil =>
    rw [if_neg (by simp)]
    exact .done (.pure _) rfl
  | cons x rest =>
    rw [if_pos (by rw [List.length_cons] at hle ⊢; omega)]
    exact Tracks.fail cursor

end PatternText

end UnitRegex
