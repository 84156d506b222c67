import UnitRegex.Proofs.Pattern.Parsed

/-!
Texts as patterns of themselves. A backslash in front of each character that has a meaning in a
pattern takes the meaning away, so what is read is one literal after the other.
-/

namespace UnitRegex

/-- A character with a backslash in front of it, if it has a meaning in a pattern. -/
def escapedChar (c : Char) : List Char := if c ∈ reservedCharacters then ['\\', c] else [c]

def escaped (chars : List Char) : List Char := chars.flatMap escapedChar

/-- A text as a pattern of itself. -/
def escapedPattern (t : String) : String := String.ofList (escaped t.toList)

/-! ### What a reader gives -/

namespace Reader

variable {α β : Type} {s : Setting} {c d c' : Cursor}

/-- From a cursor a reader gives a value and leaves another cursor. -/
def Gives (s : Setting) (m : Reader α) (c : Cursor) (a : α) (c' : Cursor) : Prop :=
  m s c = .ok (a, c')

namespace Gives

theorem pure (a : α) : Gives s (Pure.pure a) c a c := rfl

theorem bind {m : Reader α} {f : α → Reader β} {a : α} {b : β} (hm : Gives s m c a d)
    (hf : Gives s (f a) d b c') : Gives s (m >>= f) c b c' :=
  bind_eq_ok.mpr ⟨a, d, hm, hf⟩

theorem read {f : Setting → Reader β} {b : β} (h : Gives s (f s) c b c') :
    Gives s (MonadReader.read >>= f) c b c' := h

theorem get {f : Cursor → Reader β} {b : β} (h : Gives s (f c) c b c') :
    Gives s (MonadState.get >>= f) c b c' := h

theorem moveTo {f : Unit → Reader β} {rest : List Char} {b : β}
    (h : Gives s (f ()) { c with rest := rest } b c') :
    Gives s (Reader.moveTo rest >>= f) c b c' := h

end Gives

end Reader

open Reader

/-! ### Escaped texts -/

/-- Characters that may follow an escaped text: if there are any, they close a group. -/
def Closes (tail : List Char) : Prop := ∀ d rest, tail = d :: rest → d = ')'

section

variable {c : Char} {chars rest tail : List Char} {s : Setting} {cursor : Cursor}
  {group : Reader Term}

theorem escaped_cons (c : Char) (chars : List Char) :
    escaped (c :: chars) = escapedChar c ++ escaped chars :=
  List.flatMap_cons

theorem length_le_length_escaped (chars : List Char) : chars.length ≤ (escaped chars).length := by
  induction chars with
  | nil => exact Nat.le_refl _
  | cons c chars ih =>
    have hpos : 1 ≤ (escapedChar c).length := by
      unfold escapedChar
      split <;> simp
    rw [escaped_cons, List.length_append, List.length_cons]
    omega

/-- What stands for a character begins with a backslash or with a character that has no meaning. -/
theorem mem_reserved_of_escapedChar {d : Char} (h : escapedChar c ++ tail = d :: rest)
    (hd : d ∈ reservedCharacters) : d = '\\' := by
  rw [escapedChar] at h
  split at h
  · exact (List.cons.inj h).1.symm
  · rename_i hc
    exact absurd ((List.cons.inj h).1 ▸ hd) hc

/-- No character of an escaped text opens a group or a class. -/
theorem run_escaped (scan : GroupScan) (chars : List Char) :
    scan.run false (escaped chars) = scan := by
  induction chars with
  | nil => rfl
  | cons c chars ih =>
    rw [escaped_cons, escapedChar]
    split
    · exact ih
    · rename_i hc
      have hother (d : Char) (hd : d ∈ reservedCharacters) : c ≠ d := fun h => hc (h ▸ hd)
      rw [List.singleton_append, GroupScan.run]
      · exact ih
      · exact fun h => absurd h (hother _ (by decide))
      · exact fun _ _ h => absurd h (hother _ (by decide))
      · exact hother _ (by decide)
      · exact hother _ (by decide)
      · exact hother _ (by decide)

theorem gives_readQuantifier (htail : Closes tail) (hrest : cursor.rest = escaped chars ++ tail) :
    Gives s readQuantifier cursor none cursor := by
  have hother (d : Char) (more : List Char) (hd : d ∈ reservedCharacters)
      (hne : d ≠ '\\' ∧ d ≠ ')') : cursor.rest ≠ d :: more := by
    intro h
    rw [h] at hrest
    cases chars with
    | nil => exact hne.2 (htail d more hrest.symm)
    | cons c chars =>
      rw [escaped_cons, List.append_assoc] at hrest
      exact hne.1 (mem_reserved_of_escapedChar hrest.symm hd)
  have hbounds : Gives s readBounds cursor none cursor := by
    refine .get ?_
    split
    iterate 4
      · rename_i h
        exact absurd h (hother _ _ (by decide) (by decide))
    · exact .pure none
  exact hbounds.bind (.pure none)

/-- A reserved character behind a backslash stands for itself. -/
theorem gives_readEscape (hc : c ∈ reservedCharacters) (hcursor : cursor.rest = c :: rest) :
    Gives s readEscape cursor (s.flags.literalTerm c.toNat) { cursor with rest := rest } := by
  obtain ⟨⟨_, _, _, _, unicode, _⟩, _, _⟩ := s
  obtain ⟨_, _, _, _⟩ := cursor
  subst hcursor
  have hcases : c ∈ ['^', '$', '\\', '.', '*', '+', '?', '(', ')', '[', ']', '\x7b', '\x7d', '|',
    '/'] := hc
  simp only [List.mem_cons, List.not_mem_nil, or_false] at hcases
  cases unicode <;>
    rcases hcases with rfl | rfl | rfl | rfl | rfl | rfl | rfl | rfl | rfl | rfl | rfl | rfl | rfl |
      rfl | rfl <;> rfl

theorem gives_readAtom (hcursor : cursor.rest = escapedChar c ++ rest) :
    Gives s (readAtom group) cursor (s.flags.literalTerm c.toNat) { cursor with rest := rest } := by
  obtain ⟨_, _, _, _⟩ := cursor
  subst hcursor
  by_cases hc : c ∈ reservedCharacters
  · simp only [escapedChar, if_pos hc]
    refine .read (.get (.moveTo ?_))
    exact gives_readEscape hc rfl
  · have hother (d : Char) (hd : d ∈ reservedCharacters) : c ≠ d := fun h => hc (h ▸ hd)
    simp only [escapedChar, if_neg hc]
    refine .read (.get ?_)
    dsimp only
    split
    iterate 7
      · rename_i h
        exact absurd (List.cons.inj h).1 (hother _ (by decide))
    · rename_i h
      obtain ⟨rfl, rfl⟩ := List.cons.inj h
      have hbrace := beq_false_of_ne (hother '\x7b' (by decide))
      have hclosing := beq_false_of_ne (hother '\x7d' (by decide))
      have hbracket := beq_false_of_ne (hother ']' (by decide))
      simp only [hbrace, hclosing, hbracket, Bool.false_and, Bool.and_false, Bool.or_self,
        Bool.false_eq_true, if_false]
      exact .moveTo (.pure _)
    · rename_i h
      cases h

theorem gives_readTerm (htail : Closes tail)
    (hcursor : cursor.rest = escapedChar c ++ (escaped chars ++ tail)) :
    Gives s (readTerm group) cursor (s.flags.literalTerm c.toNat)
      { cursor with rest := escaped chars ++ tail } := by
  have hfirst (d : Char) (more : List Char) (hd : d ∈ reservedCharacters) (hne : d ≠ '\\') :
      cursor.rest ≠ d :: more := fun h =>
    hne (mem_reserved_of_escapedChar (h ▸ hcursor).symm hd)
  have hsecond (d : Char) (more : List Char) (hd : d ∉ reservedCharacters) :
      cursor.rest ≠ '\\' :: d :: more := by
    intro h
    rw [hcursor, escapedChar] at h
    split at h
    · rename_i hc
      exact hd ((List.cons.inj (List.cons.inj h).2).1 ▸ hc)
    · rename_i hc
      exact hc ((List.cons.inj h).1 ▸ by decide)
  refine .get ?_
  split
  · rename_i h
    exact absurd h (hfirst _ _ (by decide) (by decide))
  · rename_i h
    exact absurd h (hfirst _ _ (by decide) (by decide))
  · rename_i h
    exact absurd h (hsecond _ _ (by decide))
  · rename_i h
    exact absurd h (hsecond _ _ (by decide))
  · exact (gives_readAtom hcursor).bind ((gives_readQuantifier htail rfl).bind (.pure _))

/-- The terms of an escaped text are its literals. -/
theorem gives_readTerms (htail : Closes tail) (terms : List Term) {ahead : List Char}
    (hahead : chars.length ≤ ahead.length) (hcursor : cursor.rest = escaped chars ++ tail) :
    Gives s (readTerms group ahead terms) cursor
      (Branch.ofList (terms.reverse ++ chars.map fun c => s.flags.literalTerm c.toNat))
      { cursor with rest := tail } := by
  induction chars generalizing terms ahead cursor with
  | nil =>
    obtain ⟨left, _, _, _⟩ := cursor
    obtain rfl : left = tail := hcursor
    rw [List.map_nil, List.append_nil]
    cases ahead with
    | nil => exact .pure _
    | cons d ahead =>
      refine .get ?_
      cases left with
      | nil => exact .pure _
      | cons e rest =>
        obtain rfl := htail e rest rfl
        exact .pure _
  | cons c chars ih =>
    obtain ⟨d, ahead, rfl⟩ := List.exists_cons_of_length_pos (Nat.zero_lt_of_lt hahead)
    rw [escaped_cons, List.append_assoc] at hcursor
    have hrest : Gives s (readTerms group ahead (s.flags.literalTerm c.toNat :: terms))
        { cursor with rest := escaped chars ++ tail } _ { cursor with rest := tail } :=
      ih _ (Nat.le_of_succ_le_succ hahead) rfl
    rw [List.reverse_cons, List.append_assoc] at hrest
    have hother (d : Char) (more : List Char) (hd : d ∈ reservedCharacters) (hne : d ≠ '\\') :
        cursor.rest ≠ d :: more := fun h =>
      hne (mem_reserved_of_escapedChar (h ▸ hcursor).symm hd)
    refine .get ?_
    split
    · rename_i h
      rw [h, escapedChar] at hcursor
      split at hcursor <;> cases hcursor
    · rename_i h
      exact absurd h (hother _ _ (by decide) (by decide))
    · rename_i h
      exact absurd h (hother _ _ (by decide) (by decide))
    · exact (gives_readTerm htail hcursor).bind hrest

theorem gives_readChoice (htail : Closes tail) (hcursor : cursor.rest = escaped chars ++ tail) :
    Gives s (readChoice group) cursor
      (.one (Branch.ofList (chars.map fun c => s.flags.literalTerm c.toNat)))
      { cursor with rest := tail } := by
  have hlength : chars.length ≤ cursor.rest.length := by
    rw [hcursor, List.length_append]
    exact Nat.le_trans (length_le_length_escaped chars) (Nat.le_add_right _ _)
  refine .get (.get ((gives_readTerms htail [] hlength hcursor).bind ?_))
  cases tail with
  | nil => rfl
  | cons d rest =>
    obtain rfl := htail d rest rfl
    rfl

theorem gives_readPattern (hcursor : cursor.rest = escaped chars) :
    Gives s readPattern cursor
      (.one (Branch.ofList (chars.map fun c => s.flags.literalTerm c.toNat)))
      { cursor with rest := [] } := by
  have htail : Closes [] := fun d rest h => by cases h
  have hchoice : Gives s (readChoice (readGroup nestingLimit)) cursor _ _ :=
    gives_readChoice htail (hcursor.trans (List.append_nil _).symm)
  exact hchoice.bind rfl

end

/-- An escaped text can be read with any flags, as the row of its literals. -/
theorem Source.parse_escaped (t : String) (f : Flags) (o : Options) :
    Source.parse ⟨escapedPattern t, f, o⟩ =
      .ok
        { body := .one (Branch.ofList (t.toList.map fun c => f.literalTerm c.toNat))
          flags := f
          groupCount := 1
          groupNames := []
          context := 0 } := by
  have hscan : scanGroups (escaped t.toList) = {} := run_escaped {} t.toList
  have hread : Gives ⟨f, (escaped t.toList).length, {}⟩ readPattern
      { rest := escaped t.toList } _ _ := gives_readPattern rfl
  simp only [Source.parse, escapedPattern, String.toList_ofList, hscan]
  rw [show (readPattern.run ⟨f, (escaped t.toList).length, {}⟩).run { rest := escaped t.toList } = _
    from hread]

end UnitRegex
