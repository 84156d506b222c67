import UnitRegex.Proofs.Pattern.Growth
import UnitRegex.Proofs.Pattern.Reached

/-!
Bounds of quantifiers. Two bounds in braces are the values of their digits, up to the greatest
number that a bound can be, and a pattern is rejected for their order if and only if the first is
greater than the second then.
-/

namespace UnitRegex

namespace Reader

variable {α β : Type}

/-- A reader that never finds bounds out of order. -/
def Orderly (m : Reader α) : Prop := ∀ s c e, m s c = .error e → e.1 ≠ .quantifierOutOfOrder

namespace Orderly

/-- A reader that always gives something. -/
theorem of_ok {m : Reader α} (h : ∀ s c, ∃ r, m s c = .ok r) : m.Orderly := by
  intro s c e he
  obtain ⟨r, hr⟩ := h s c
  rw [hr] at he
  cases he

@[grind ←] theorem pure (a : α) : Orderly (Pure.pure a) := of_ok fun _ _ => ⟨_, rfl⟩

@[grind ←] theorem throw {e : Fault × Nat} (he : e.1 ≠ .quantifierOutOfOrder) :
    Orderly (MonadExcept.throw e : Reader α) := by
  rintro s c _ ⟨⟩
  exact he

@[grind ←] theorem fail {fault : Fault} (h : fault ≠ .quantifierOutOfOrder) :
    Orderly (Reader.fail fault : Reader α) := by
  rintro s c _ ⟨⟩
  exact h

@[grind ←] theorem read : Orderly (MonadReader.read : Reader Setting) :=
  of_ok fun _ _ => ⟨_, rfl⟩

@[grind ←] theorem get : Orderly (MonadState.get : Reader Cursor) :=
  of_ok fun _ _ => ⟨_, rfl⟩

@[grind ←] theorem position : Orderly Reader.position :=
  of_ok fun _ _ => ⟨_, rfl⟩

@[grind ←] theorem moveTo (rest : List Char) : Orderly (Reader.moveTo rest) :=
  of_ok fun _ _ => ⟨_, rfl⟩

@[grind ←] theorem bind {m : Reader α} {f : α → Reader β} (hm : m.Orderly)
    (hf : ∀ a, (f a).Orderly) : (m >>= f).Orderly := by
  intro s c e h
  have hrun : (m >>= f) s c = m s c >>= fun r => f r.1 s r.2 := rfl
  rw [hrun] at h
  cases hmc : m s c with
  | error e' =>
    rw [hmc] at h
    cases h
    exact hm s c e hmc
  | ok r =>
    rw [hmc] at h
    exact hf r.1 s r.2 e h

@[grind ←] theorem accept (x : Char) : Orderly (Reader.accept x) := by
  unfold Reader.accept
  grind

@[grind ←] theorem map {m : Reader α} {f : α → β} (hm : m.Orderly) : Orderly (f <$> m) :=
  hm.bind fun a => .pure (f a)

end Orderly

end Reader

open Reader

@[grind ←] theorem orderly_readUnicodeEscape : readUnicodeEscape.Orderly := by
  refine .bind .read fun s => .bind .get fun c => ?_
  split
  · grind
  · split
    · grind
    · refine .bind (.moveTo _) fun _ => ?_
      split <;> grind

@[grind ←] theorem orderly_readCharacterEscape (inClass : Bool) :
    (readCharacterEscape inClass).Orderly := by
  refine .bind .read fun s => .bind .get fun c => ?_
  split
  · grind
  · refine .bind (.moveTo _) fun _ => ?_
    split <;> grind

@[grind ←] theorem orderly_readGroupName : readGroupName.Orderly := by
  unfold readGroupName
  grind

@[grind ←] theorem orderly_readDecimalEscape (chars : List Char) :
    (readDecimalEscape chars).Orderly := by
  unfold readDecimalEscape
  grind

@[grind ←] theorem orderly_readNamedReference (chars : List Char) :
    (readNamedReference chars).Orderly := by
  unfold readNamedReference
  grind

@[grind ←] theorem orderly_readEscape : readEscape.Orderly := by
  unfold readEscape
  grind

@[grind ←] theorem orderly_readClassEscape : readClassEscape.Orderly := by
  refine .bind .read fun s => .bind .get fun c => ?_
  dsimp only
  split
  · grind
  · split
    · exact .fail (by simp)
    · refine .bind (orderly_readCharacterEscape true) fun atom => ?_
      split
      · exact .fail (by simp)
      · exact .pure _

@[grind ←] theorem orderly_readClassAtom : readClassAtom.Orderly := by
  unfold readClassAtom
  grind

@[grind ←] theorem orderly_readClassItems (opened fuel : Nat) (ranges : List Interval) :
    (readClassItems opened fuel ranges).Orderly := by
  induction fuel generalizing ranges with
  | zero => exact .throw (by simp)
  | succ fuel ih =>
    refine .bind .get fun c => ?_
    split
    · grind
    · grind
    · refine .bind orderly_readClassAtom fun low => .bind .get fun c' => ?_
      split
      · exact ih _
      · refine .bind (.map (.accept _)) fun _ => .bind orderly_readClassAtom fun high => ?_
        split <;> grind

@[grind ←] theorem orderly_readClass (rest : List Char) : (readClass rest).Orderly := by
  unfold readClass
  grind

theorem orderly_readAtom {group : Reader Term} (hgroup : group.Orderly) :
    (readAtom group).Orderly := by
  unfold readAtom
  grind

/-! ### The values of bounds -/

/-- The digits of a number. -/
def Decimal (digits : List Char) : Prop := digits ≠ [] ∧ ∀ c ∈ digits, c.isDigit = true

instance (digits : List Char) : Decidable (Decimal digits) :=
  decidable_of_iff (digits ≠ [] ∧ digits.all Char.isDigit = true)
    (and_congr_right' List.all_eq_true)

theorem digitValue?_of_isDigit {c : Char} (h : c.isDigit = true) :
    digitValue? 10 c = some (c.toNat - '0'.toNat) := by
  have hc : '0' ≤ c ∧ c ≤ '9' := by
    rw [Char.isDigit, Bool.and_eq_true, decide_eq_true_eq, decide_eq_true_eq] at h
    exact h
  have hle : c.toNat ≤ 57 := hc.2
  exact PatternText.digitValue?_decimal hc (by omega)

/-- Stopping at a limit on the way is the same as stopping at the end. -/
theorem numberUpTo_eq (limit : Nat) (digits : List Char) :
    numberUpTo limit 10 (digits.map fun c => c.toNat - '0'.toNat) =
      min limit (Nat.ofDigitChars 10 digits 0) := by
  have hfold (start : Nat) :
      (digits.map fun c => c.toNat - '0'.toNat).foldl
        (fun value d => min limit (value * 10 + d)) (min limit start) =
          min limit (Nat.ofDigitChars 10 digits start) := by
    induction digits generalizing start with
    | nil => rfl
    | cons c digits ih =>
      rw [List.map_cons, List.foldl_cons, Nat.ofDigitChars_cons, ← ih]
      congr 1
      omega
  have hstart := hfold 0
  rwa [Nat.min_zero] at hstart

theorem takeDigits_append {digits : List Char} (rest : List Char)
    (h : ∀ c ∈ digits, c.isDigit = true) (hrest : ∀ c ∈ rest.head?, digitValue? 10 c = none) :
    takeDigits 10 (digits ++ rest) = (digits.map fun c => c.toNat - '0'.toNat, rest) := by
  induction digits with
  | nil =>
    cases rest with
    | nil => rfl
    | cons c rest =>
      rw [List.nil_append, takeDigits, hrest c rfl]
      rfl
  | cons c digits ih =>
    rw [List.cons_append, takeDigits, digitValue?_of_isDigit (h c List.mem_cons_self),
      ih fun d hd => h d (List.mem_cons_of_mem c hd)]
    rfl

/-- Two bounds in braces are the values of their digits, up to the greatest number. -/
theorem readBraces?_append {low high : List Char} (hlow : Decimal low) (hhigh : Decimal high)
    (rest : List Char) :
    readBraces? (low ++ ',' :: (high ++ '}' :: rest)) =
      some ((min maxRepeat (Nat.ofDigitChars 10 low 0),
        some (min maxRepeat (Nat.ofDigitChars 10 high 0))), rest) := by
  have hfirst : (high ++ '}' :: rest).head? ≠ some '}' := by
    obtain ⟨c, more, rfl⟩ := List.exists_cons_of_ne_nil hhigh.1
    intro hc
    have hdigit := hhigh.2 c List.mem_cons_self
    rw [Option.some.inj hc] at hdigit
    exact absurd hdigit (by decide)
  have hempty {digits : List Char} (h : Decimal digits) :
      (digits.map fun c => c.toNat - '0'.toNat).isEmpty = false := by
    simpa using h.1
  have hcomma := takeDigits_append (',' :: (high ++ '}' :: rest)) hlow.2 (by simp [digitValue?])
  have hbrace := takeDigits_append ('}' :: rest) hhigh.2 (by simp [digitValue?])
  simp only [PatternText.readBraces?_eq, hcomma, hbrace, List.head?_cons, List.tail_cons,
    hempty hlow, hempty hhigh, hfirst, Bool.false_eq_true, if_true, if_false, numberUpTo_eq]

/-! ### Where bounds are out of order -/

namespace PatternText

variable {α β : Type} {s : PatternText} {c : Cursor} {rest : List Char}

/-- Two bounds stand in braces at a position, and the first one is greater than the second. -/
def Disordered (s : PatternText) (p : Nat) : Prop :=
  ∃ rest low high after, '{' :: rest <:+ s.chars.toList ∧
    p = s.chars.size - ('{' :: rest).length ∧
    readBraces? rest = some ((low, some high), after) ∧ high < low

/-- In front of characters of the pattern a reader comes in front of others. If it finds bounds out
of order, they stand at the position that it tells. -/
def Blames (s : PatternText) (r : Reader α) (c : Cursor) : Prop :=
  c.rest <:+ s.chars.toList →
    match r s.setting c with
    | .error e => e.1 = .quantifierOutOfOrder → s.Disordered e.2
    | .ok (_, c') => c'.rest <:+ s.chars.toList

namespace Blames

theorem pure (a : α) : s.Blames (Pure.pure a) c := id

theorem throw {e : Fault × Nat} (he : e.1 ≠ .quantifierOutOfOrder) :
    s.Blames (MonadExcept.throw e : Reader α) c := fun _ h => absurd h he

theorem fail {fault : Fault} (h : fault ≠ .quantifierOutOfOrder) :
    s.Blames (Reader.fail fault : Reader α) c := fun _ he => absurd he h

theorem bind {r : Reader α} {f : α → Reader β} (h : s.Blames r c)
    (hf : ∀ a c', s.Blames (f a) c') : s.Blames (r >>= f) c := by
  intro hc
  have hr := h hc
  have hread : (r >>= f) s.setting c = r s.setting c >>= fun x => f x.1 s.setting x.2 := rfl
  rw [hread]
  cases hrun : r s.setting c with
  | error e =>
    rw [hrun] at hr
    exact hr
  | ok x =>
    rw [hrun] at hr
    exact hf x.1 x.2 hr

theorem read {f : Setting → Reader β} (h : s.Blames (f s.setting) c) :
    s.Blames (MonadReader.read >>= f) c := h

theorem get {f : Cursor → Reader β} (h : s.Blames (f c) c) :
    s.Blames (MonadState.get >>= f) c := h

theorem moveTo {f : Unit → Reader β} (hrest : rest <:+ c.rest)
    (h : s.Blames (f ()) { c with rest := rest }) : s.Blames (Reader.moveTo rest >>= f) c :=
  fun hc => h (hrest.trans hc)

/-- What is collected on the way does not matter. -/
theorem collect {f : Unit → Reader β} {change : Cursor → Cursor}
    (hrest : (change c).rest = c.rest) (h : s.Blames (f ()) (change c)) :
    s.Blames (modify change >>= f) c := fun hc => h (hrest ▸ hc)

theorem newGroup {f : Nat → Reader β}
    (h : s.Blames (f c.nextGroup) { c with nextGroup := c.nextGroup + 1 }) :
    s.Blames (Reader.newGroup >>= f) c := h

/-- A reader that a scanner follows comes in front of characters of the pattern. -/
theorem of_tracks (depth : Nat) {m : Scan α} {r : Reader α} {P : α → Nat → Prop}
    (h : s.Tracks depth c.rest m r P) (hr : r.Orderly) : s.Blames r c := by
  intro hc
  have hrun := h c hc
  split
  · rename_i e he
    exact fun hfault => absurd hfault (hr _ _ _ he)
  · rename_i a c' hok
    rw [hok] at hrun
    exact hrun.2.1

theorem accept (x : Char) : s.Blames (Reader.accept x) c :=
  of_tracks 0 (Tracks.accept x) (.accept x)

theorem congr {r r' : Reader α} (h : s.Blames r c) (hagree : Agree s.setting c r' r) :
    s.Blames r' c := by
  intro hc
  rw [hagree]
  exact h hc

end Blames

theorem blames_readBounds (c : Cursor) : s.Blames readBounds c := by
  apply Blames.get
  split
  · rename_i rest hrest
    exact .moveTo (hrest ▸ List.suffix_cons _ rest) (.pure _)
  · rename_i rest hrest
    exact .moveTo (hrest ▸ List.suffix_cons _ rest) (.pure _)
  · rename_i rest hrest
    exact .moveTo (hrest ▸ List.suffix_cons _ rest) (.pure _)
  · rename_i rest hrest
    split
    · rename_i low high after hbraces
      split
      · rename_i hhigh
        obtain ⟨bound, rfl, hlt⟩ := (Option.any_eq_true _ _).mp hhigh
        intro hc _
        rw [hrest] at hc
        exact ⟨rest, low, bound, after, hc, by rw [← hrest]; rfl, hbraces, of_decide_eq_true hlt⟩
      · refine .moveTo ?_ (.pure _)
        rw [hrest]
        exact (suffix_of_readBraces? hbraces).trans (List.suffix_cons _ rest)
    · apply Blames.read
      split
      · exact .fail (by simp)
      · exact .pure _
  · exact .pure _

theorem blames_readQuantifier (c : Cursor) : s.Blames readQuantifier c := by
  refine (blames_readBounds c).bind fun bounds c' => ?_
  split
  · exact .pure _
  · exact (Blames.accept '?').bind fun _ _ => .pure _

theorem blames_readAnchor (kind : Anchor) (hrest : rest <:+ c.rest) :
    s.Blames (readAnchor kind rest) c := by
  refine .moveTo hrest (.read ?_)
  have hend (c : Cursor) : s.Blames
      (if startsQuantifier rest then Reader.fail .nothingToRepeat else return .anchor kind :
        Reader Term) c := by
    split
    · exact .fail (by simp)
    · exact .pure _
  exact iteInduction (motive := fun r => s.Blames r _) (fun _ => .collect rfl (hend _))
    fun _ => hend _

section

variable {group : Reader Term} (hgroup : ∀ c, s.Blames group c)

include hgroup

theorem blames_readAtom (c : Cursor) : s.Blames (readAtom group) c := by
  by_cases hopen : ∃ rest, c.rest = '(' :: rest
  · obtain ⟨rest, hrest⟩ := hopen
    exact (hgroup c).congr (readAtom_open hrest group s.setting)
  · have hleaf (rest : List Char) : c.rest ≠ '(' :: rest := fun h => hopen ⟨rest, h⟩
    -- An atom that is no group is read the same with a reader of groups that fails at once.
    refine Blames.congr ?_ (readAtom_congr hleaf group (Reader.fail .unexpectedEnd) s.setting)
    exact .of_tracks 0 (tracks_scanLeaf _ hleaf) (orderly_readAtom (.fail (by simp)))

theorem blames_readTerm (c : Cursor) : s.Blames (readTerm group) c := by
  apply Blames.get
  split
  · rename_i rest hrest
    exact blames_readAnchor _ (hrest ▸ List.suffix_cons _ rest)
  · rename_i rest hrest
    exact blames_readAnchor _ (hrest ▸ List.suffix_cons _ rest)
  · rename_i rest hrest
    exact blames_readAnchor _ (hrest ▸ ⟨['\\', 'b'], rfl⟩)
  · rename_i rest hrest
    exact blames_readAnchor _ (hrest ▸ ⟨['\\', 'B'], rfl⟩)
  · refine (blames_readAtom hgroup c).bind fun atom c' => ?_
    refine (blames_readQuantifier c').bind fun quantifier c'' => ?_
    split
    · exact .pure _
    · apply Blames.read
      split
      · exact .fail (by simp)
      · exact .pure _

theorem blames_readTerms (ahead : List Char) (terms : List Term) (c : Cursor) :
    s.Blames (readTerms group ahead terms) c := by
  induction ahead generalizing terms c with
  | nil => exact .pure _
  | cons _ ahead ih =>
    apply Blames.get
    split
    · exact .pure _
    · exact .pure _
    · exact .pure _
    · exact (blames_readTerm hgroup c).bind fun t c' => ih (t :: terms) c'

theorem blames_readBranches (ahead : List Char) (c : Cursor) :
    s.Blames (readBranches group ahead) c := by
  induction ahead generalizing c with
  | nil => exact .pure _
  | cons _ ahead ih =>
    apply Blames.get
    refine (blames_readTerms hgroup _ [] c).bind fun branch c' => ?_
    refine (Blames.accept '|').bind fun found c'' => ?_
    split
    · exact (ih c'').bind fun _ _ => .pure _
    · exact .pure _

theorem blames_readChoice (c : Cursor) : s.Blames (readChoice group) c :=
  .get (blames_readBranches hgroup _ c)

end

section

variable {choice : Reader Choice} (hchoice : ∀ c, s.Blames choice c)

include hchoice

theorem blames_readLook (behind negated : Bool) (c : Cursor) :
    s.Blames (readLook choice behind negated) c := by
  refine (hchoice c).bind fun body c' => ?_
  cases behind with
  | false => exact .pure _
  | true =>
    dsimp only [if_true]
    cases body.soleSequence? with
    | none => exact .pure _
    | some sets => exact .collect rfl (.pure _)

theorem blames_readGroupBody (c : Cursor) : s.Blames (readGroupBody choice) c := by
  have hgroup (capture : Option Nat) (c : Cursor) :
      s.Blames (do return Term.group capture none (← choice)) c :=
    (hchoice c).bind fun _ _ => .pure _
  apply Blames.get
  split
  · rename_i rest hrest
    exact .moveTo ⟨['?', ':'], hrest.symm⟩ (hgroup none _)
  · rename_i rest hrest
    exact .moveTo ⟨['?', '='], hrest.symm⟩ (blames_readLook hchoice false false _)
  · rename_i rest hrest
    exact .moveTo ⟨['?', '!'], hrest.symm⟩ (blames_readLook hchoice false true _)
  · rename_i rest hrest
    exact .moveTo ⟨['?', '<', '='], hrest.symm⟩ (blames_readLook hchoice true false _)
  · rename_i rest hrest
    exact .moveTo ⟨['?', '<', '!'], hrest.symm⟩ (blames_readLook hchoice true true _)
  · rename_i rest hrest
    refine .moveTo ⟨['?', '<'], hrest.symm⟩ ?_
    refine (Blames.of_tracks 0 (tracks_scanGroupName _) orderly_readGroupName).bind
      fun name c' => .get ?_
    split
    · exact .fail (by simp)
    · exact .newGroup (.collect rfl (hgroup _ _))
  · rename_i hrest
    refine .moveTo ?_ (.fail (by simp))
    rw [hrest]
    exact (List.tail_suffix _).trans (List.suffix_cons '?' _)
  · exact .newGroup (hgroup _ _)

end

theorem blames_readGroup (depth : Nat) (c : Cursor) : s.Blames (readGroup depth) c := by
  induction depth generalizing c with
  | zero => exact .fail (by simp)
  | succ depth ih =>
    apply Blames.get
    refine Blames.bind ((Blames.accept '(').bind fun _ _ => .pure _) fun _ c' => ?_
    refine (blames_readGroupBody (blames_readChoice ih) c').bind fun t c'' => ?_
    refine (Blames.accept ')').bind fun closed _ => ?_
    split
    · exact .pure _
    · exact .read (.throw (by simp))

theorem blames_readPattern (c : Cursor) : s.Blames readPattern c := by
  refine (blames_readChoice (blames_readGroup nestingLimit) c).bind fun body c' => .get ?_
  split
  · exact .pure _
  · exact .fail (by simp)

/-- A quantifier with its bounds out of order stops the scanner in front of it. -/
theorem run_scanQuantifier_of_disordered {y : Spot} {low high : Nat} {after : List Char}
    (hy : s.ahead y = '{' :: rest)
    (hbraces : readBraces? rest = some ((low, some high), after)) (hlt : high < low) :
    (s.scanQuantifier y).run = some (.error (.quantifierOutOfOrder, y.pos)) := by
  have hlength : (s.ahead y).length = s.chars.size - y.pos := s.length_ahead y
  have hpos : y.pos ≤ s.chars.size := by
    rw [hy, List.length_cons] at hlength
    omega
  have hpeek : s.chars[y.pos]? = some '{' := by
    rw [← Array.getElem?_toList, ← List.head?_drop]
    exact congrArg List.head? hy
  have hspot := s.spot_ahead hpos
  have hsuffix : s.ahead y <:+ s.chars.toList := List.drop_suffix _ _
  rw [hy] at hspot hsuffix
  have hrun := (steps_scanBraces hsuffix).2 y.depth ⟨'{' :: rest, y.nextGroup, y.named, y.context⟩
  rw [hspot, hbraces] at hrun
  rw [scanQuantifier]
  apply run_bind_of_error
  rw [scanBounds]
  apply run_bind_of_error
  rw [scanBoundsFront, run_bind_of_ok _ (run_peek s y), hpeek]
  show ((s.scanBraces >>= _) y).run = _
  rw [run_bind_of_ok _ hrun]
  show ((if (some high).any (· < low) then _ else _ : Scan (Option (Nat × Option Nat))) y).run = _
  rw [if_pos (by simpa using hlt)]
  rfl

end PatternText

/-! ### Rejected bounds -/

variable {s : Source}

theorem Source.parse_eq_error_iff {fault : Fault} {p : Nat} :
    s.parse = .error ⟨s.pattern, fault, p⟩ ↔
      readPattern s.setting { rest := s.pattern.toList } = .error (fault, p) := by
  constructor
  · intro h
    unfold Source.parse at h
    dsimp only at h
    split at h
    · rename_i hread
      obtain ⟨-, rfl, rfl⟩ := SyntaxError.mk.inj (Except.error.inj h)
      exact hread
    · cases h
  · intro h
    have hread :
        (readPattern.run ⟨s.flags, s.pattern.toList.length, scanGroups s.pattern.toList⟩).run
          { rest := s.pattern.toList } = .error (fault, p) := h
    unfold Source.parse
    dsimp only
    rw [hread]

/-- Where reading by position stops with a fault, the pattern is rejected for it. -/
theorem Source.readPattern_of_scanPattern {e : Fault × Nat}
    (h : (s.text.scanPattern {}).run = some (.error e)) :
    readPattern s.setting { rest := s.pattern.toList } = .error e := by
  have hstart : s.text.spot 0 s.pattern.toList { rest := s.pattern.toList } = {} := by
    rw [PatternText.spot, s.size_text, Nat.sub_self]
  have hpattern := s.follows_text (List.suffix_refl _)
  rw [s.setting_text, hstart, h] at hpattern
  split at hpattern
  · rename_i e' hread
    rw [hread, Except.error.inj (Option.some.inj hpattern.1)]
  · cases hpattern.1

/-- The pattern is rejected because the bounds at a position are out of order. -/
def Source.Disorders (s : Source) (p : Nat) : Prop :=
  s.parse = .error ⟨s.pattern, .quantifierOutOfOrder, p⟩

/-- Reading a pattern blames bounds that are out of order at the position. -/
theorem Source.Disorders.disordered {p : Nat} (h : s.Disorders p) : s.text.Disordered p := by
  have hread := Source.parse_eq_error_iff.mp h
  have hblames := PatternText.blames_readPattern (s := s.text) { rest := s.pattern.toList }
    (List.suffix_refl _)
  rw [s.setting_text, hread] at hblames
  exact hblames rfl

/-- Bounds behind an atom are compared as numbers, up to the greatest number that a bound can be.
They are never rejected if the first one is not greater than the second, and always if it is greater
and the second is below that number. -/
theorem Source.disorders_iff (s : Source) {y : Spot} {low high rest : List Char}
    (hy : s.text.BehindAtom y) (hlow : Decimal low) (hhigh : Decimal high)
    (hahead : s.pattern.toList.drop y.pos = '{' :: (low ++ ',' :: (high ++ '}' :: rest))) :
    (s.Disorders y.pos ↔
        min maxRepeat (Nat.ofDigitChars 10 high 0) < min maxRepeat (Nat.ofDigitChars 10 low 0)) ∧
      (Nat.ofDigitChars 10 low 0 ≤ Nat.ofDigitChars 10 high 0 → ¬s.Disorders y.pos) ∧
      (Nat.ofDigitChars 10 high 0 < maxRepeat →
        (s.Disorders y.pos ↔ Nat.ofDigitChars 10 high 0 < Nat.ofDigitChars 10 low 0)) := by
  have hbraces := readBraces?_append hlow hhigh rest
  have hiff : s.Disorders y.pos ↔
      min maxRepeat (Nat.ofDigitChars 10 high 0) < min maxRepeat (Nat.ofDigitChars 10 low 0) := by
    constructor
    · intro h
      obtain ⟨more, first, second, after, hsuffix, hpos, hread, hlt⟩ := h.disordered
      have hmore := List.suffix_iff_eq_drop.mp hsuffix
      rw [Array.length_toList, ← hpos] at hmore
      have hsame : '{' :: more = '{' :: (low ++ ',' :: (high ++ '}' :: rest)) := hmore.trans hahead
      rw [(List.cons.inj hsame).2, hbraces] at hread
      cases hread
      exact hlt
    · intro hlt
      exact parse_eq_error_iff.mpr (readPattern_of_scanPattern (hy.run_scanPattern
        (PatternText.run_scanQuantifier_of_disordered hahead hbraces hlt)))
  refine ⟨hiff, fun hle h => ?_, fun hmax => ?_⟩
  · have hlt := hiff.mp h
    omega
  · rw [hiff]
    omega

theorem PatternText.behindAtom_of_letter {s : PatternText} (h : s.chars[0]? = some 'a') :
    s.BehindAtom ⟨1, 0, 1, [], 0⟩ := by
  have hpeek : (s.peek {}).run = some (.ok (some 'a', {})) := by
    rw [← h]
    rfl
  have hmove : (s.move 1 {}).run = some (.ok ((), ⟨1, 0, 1, [], 0⟩)) := by
    have hsize : 1 ≤ s.chars.size := (Array.getElem?_eq_some_iff.mp h).1
    show (s.goTo (0 + 1) {}).run = _
    rw [goTo, if_pos hsize]
    rfl
  have hleaf : (s.scanLeaf {}).run =
      some (.ok (s.flags.unitTerm (CharSet.single 97), ⟨1, 0, 1, [], 0⟩)) := by
    rw [scanLeaf, run_bind_of_ok _ hpeek]
    show ((if s.flags.unicode && false then Scan.fail .loneQuantifierBracket
      else do s.move 1; s.scanLiteral 97 : Scan Term) {}).run = _
    rw [Bool.and_false, if_neg Bool.false_ne_true, run_bind_of_ok _ hmove]
    rfl
  refine ⟨{}, s.flags.unitTerm (CharSet.single 97), .start, ⟨'a', h, by decide, by decide⟩, ?_, ?_⟩
  · rw [anchorAhead, run_bind_of_ok _ hpeek]
    rfl
  · rw [scanAtom, run_bind_of_ok _ hpeek]
    exact hleaf

/-- The bounds two and one are rejected. -/
theorem Source.disorders_two_one : Source.Disorders { pattern := "a\x7b2,1\x7d" } 1 :=
  (disorders_iff { pattern := "a\x7b2,1\x7d" } (PatternText.behindAtom_of_letter (by decide))
    (show Decimal ['2'] by decide) (show Decimal ['1'] by decide)
    (show _ = '{' :: (['2'] ++ ',' :: (['1'] ++ '}' :: [])) by decide)).1.mpr (by decide)

/-- A first bound that is greater than the second is not always rejected: above the greatest number
both are taken for it. -/
theorem Source.not_disorders_of_saturated :
    ¬∀ (s : Source) (y : Spot) (low high rest : List Char), s.text.BehindAtom y → Decimal low →
      Decimal high → s.pattern.toList.drop y.pos = '{' :: (low ++ ',' :: (high ++ '}' :: rest)) →
        Nat.ofDigitChars 10 high 0 < Nat.ofDigitChars 10 low 0 → s.Disorders y.pos := by
  intro h
  have hrejected := h { pattern := "a\x7b4294967296,4294967295\x7d" } ⟨1, 0, 1, [], 0⟩
    "4294967296".toList "4294967295".toList [] (PatternText.behindAtom_of_letter (by decide))
    (by decide) (by decide) (by decide) (by decide)
  have hread : (Source.parse { pattern := "a\x7b4294967296,4294967295\x7d" }).isOk = true := by
    decide +kernel
  rw [hrejected] at hread
  cases hread

end UnitRegex
