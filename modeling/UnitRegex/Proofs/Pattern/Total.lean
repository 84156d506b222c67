import UnitRegex.Proofs.Pattern.Nesting
import UnitRegex.Proofs.Pattern.ScannedTerms

/-!
Reading by position is total. It never leaves the pattern, never takes a number from a smaller one
and always ends, with what the reader of a list gives.
-/

namespace UnitRegex

/-! ### The first pass -/

/-- The first pass looks at no more than three characters behind a parenthesis. -/
theorem GroupScan.note_eq_getElem? (scan : GroupScan) (rest : List Char) : scan.note rest =
    if rest[0]? ≠ some '?' then ⟨scan.count + 1, scan.names⟩
    else if rest[1]? = some '<' ∧ rest[2]? ≠ some '=' ∧ rest[2]? ≠ some '!' then
      ⟨scan.count + 1,
        scan.names ++ [(String.ofList ((rest.drop 2).takeWhile (· != '>')), scan.count + 1)]⟩
    else scan := by
  unfold GroupScan.note
  split
  · rfl
  · rfl
  · rename_i more hahead hnot
    cases more with
    | nil => rfl
    | cons x more => simp_all
  · rename_i more hahead hnot hname
    cases more with
    | nil => rfl
    | cons x more => simp_all
  · rename_i hahead hnot hname hquestion
    cases rest with
    | nil => rfl
    | cons x more => simp_all

namespace PatternText

variable {s : PatternText} {ahead rest : List Char}

/-- At a parenthesis that counts, the first pass by index notes the same. -/
theorem runFrom_note (scan : GroupScan) (h : ('(' :: rest) <:+ s.chars.toList) :
    scan.runFrom s.chars false (s.chars.size - ('(' :: rest).length) =
      (scan.note rest).runFrom s.chars false (s.chars.size - rest.length) := by
  have hle := length_le h
  rw [List.length_cons] at hle
  have hone : s.chars[s.chars.size - ('(' :: rest).length + 1]? = rest[0]? := getElem?_ahead h 1
  have htwo : s.chars[s.chars.size - ('(' :: rest).length + 2]? = rest[1]? := getElem?_ahead h 2
  have hthree : s.chars[s.chars.size - ('(' :: rest).length + 3]? = rest[2]? :=
    getElem?_ahead h 3
  rw [GroupScan.runFrom, if_pos (position_lt h), getElem?_first h, GroupScan.note_eq_getElem?]
  dsimp only [List.head?_cons, Option.bind_eq_bind, Option.bind_some]
  rw [if_neg (by decide), if_neg (by decide), if_neg (by decide), if_neg (by decide), hone, htwo,
    hthree, position_tail h]
  by_cases hquestion : rest[0]? ≠ some '?'
  · rw [if_pos hquestion, if_pos hquestion]
  · rw [if_neg hquestion, if_neg hquestion]
    by_cases hname : rest[1]? = some '<' ∧ rest[2]? ≠ some '=' ∧ rest[2]? ≠ some '!'
    · obtain ⟨hlong, -⟩ := List.getElem?_eq_some_iff.mp hname.1
      have hdrop : s.chars.toList.drop (s.chars.size - ('(' :: rest).length + 3) = rest.drop 2 := by
        have hahead := List.suffix_iff_eq_drop.mp h
        rw [Array.length_toList] at hahead
        rw [← List.drop_drop, ← hahead, List.drop_succ_cons]
      rw [if_pos hname, if_pos hname, if_pos (by rw [List.length_cons]; omega), hdrop]
    · rw [if_neg hname, if_neg hname]

/-- The first pass by index sees the same parentheses. -/
theorem runFrom_eq (scan : GroupScan) (inClass : Bool) (h : ahead <:+ s.chars.toList) :
    scan.runFrom s.chars inClass (s.chars.size - ahead.length) = some (scan.run inClass ahead) := by
  fun_induction GroupScan.run scan inClass ahead with
  | case1 scan inClass => rw [GroupScan.runFrom, if_neg (by simp)]
  | case2 scan inClass =>
    have hlt := position_lt h
    have hend : ¬s.chars.size - ['\\'].length + 2 < s.chars.size := by
      rw [List.length_singleton] at hlt ⊢
      omega
    have hdone : scan.runFrom s.chars inClass (s.chars.size - ['\\'].length + 2) = some scan := by
      rw [GroupScan.runFrom, if_neg hend]
    rw [GroupScan.runFrom, if_pos hlt, getElem?_first h]
    exact hdone
  | case3 scan inClass c rest ih =>
    rw [← ih (suffix_tail (suffix_tail h)), ← position_tail (suffix_tail h), ← position_tail h,
      GroupScan.runFrom, if_pos (position_lt h), getElem?_first h]
    rfl
  | case4 scan inClass rest ih =>
    rw [← ih (suffix_tail h), ← position_tail h, GroupScan.runFrom, if_pos (position_lt h),
      getElem?_first h]
    rfl
  | case5 scan inClass rest ih =>
    rw [← ih (suffix_tail h), ← position_tail h, GroupScan.runFrom, if_pos (position_lt h),
      getElem?_first h]
    rfl
  | case6 scan rest ih =>
    rw [← ih (suffix_tail h), ← position_tail h, GroupScan.runFrom, if_pos (position_lt h),
      getElem?_first h]
    rfl
  | case7 scan inClass rest hout ih =>
    obtain rfl := Bool.eq_false_iff.mpr hout
    rw [← ih (suffix_tail h), runFrom_note scan h]
  | case8 scan inClass c rest hending hescape hopen hclose hleft ih =>
    have hslash : c ≠ '\\' := by
      intro hc
      cases rest with
      | nil => exact hending hc rfl
      | cons d more => exact hescape d more hc rfl
    rw [← ih (suffix_tail h), ← position_tail h, GroupScan.runFrom, if_pos (position_lt h),
      getElem?_first h]
    dsimp only [List.head?_cons, Option.bind_eq_bind, Option.bind_some]
    rw [if_neg hslash, if_neg hopen, if_neg hclose, if_pos (.inl hleft)]

end PatternText

/-- The text of a source, with the capture groups that the first pass finds. -/
def Source.text (s : Source) : PatternText :=
  ⟨s.flags, s.pattern.toList.toArray, scanGroups s.pattern.toList⟩

theorem Source.size_text (s : Source) : s.text.chars.size = s.pattern.toList.length :=
  List.size_toArray

theorem Source.setting_text (s : Source) : s.text.setting = s.setting := by
  rw [PatternText.setting, s.size_text]
  rfl

/-- From the start, reading by position follows the reader of a list. -/
theorem Source.follows_text (s : Source) :
    s.text.Follows 0 s.pattern.toList { rest := s.pattern.toList } s.text.scanPattern readPattern
      fun _ left => left = 0 :=
  PatternText.tracks_scanPattern (s := s.text) s.pattern.toList { rest := s.pattern.toList }

/-- Reading by position ends, in range, with what reading a list gives. -/
theorem Source.scan_eq (s : Source) : s.scan = some s.parse := by
  have hgroups : ({} : GroupScan).runFrom s.pattern.toList.toArray false 0 =
      some (scanGroups s.pattern.toList) := by
    have hrun := PatternText.runFrom_eq (s := s.text) {} false (List.suffix_refl _)
    rwa [Array.length_toList, Nat.sub_self] at hrun
  have hstart : s.text.spot 0 s.pattern.toList { rest := s.pattern.toList } = {} := by
    rw [PatternText.spot, s.size_text, Nat.sub_self]
  have hpattern := s.follows_text (List.suffix_refl _)
  rw [s.setting_text, hstart] at hpattern
  dsimp only [Source.text, Source.setting] at hpattern
  unfold Source.scan Source.parse
  dsimp only [StateT.run, ReaderT.run]
  rw [hgroups]
  dsimp only [Option.bind_eq_bind, Option.bind_some]
  split at hpattern
  · rename_i e hread
    rw [hpattern.1, hread]
    rfl
  · rename_i body c hread
    rw [hpattern.1, hread]
    rfl

/-- An error shows the pattern and a position of it. -/
theorem Source.located_of_parse {s : Source} {e : SyntaxError} (h : s.parse = .error e) :
    e.pattern = s.pattern ∧ e.position ≤ s.pattern.toList.length := by
  have hpattern := s.follows_text (List.suffix_refl _)
  rw [s.setting_text, s.size_text] at hpattern
  unfold Source.parse at h
  dsimp only at h
  split at h
  · rename_i fault position hread
    have hread : readPattern s.setting { rest := s.pattern.toList } = .error (fault, position) :=
      hread
    rw [hread] at hpattern
    obtain rfl := Except.error.inj h
    exact ⟨rfl, hpattern.2⟩
  · cases h

/-! ### Terms on their own -/

namespace PatternText

variable {α : Type} {s : PatternText} {x : Spot}

/-- At a spot a scanner stops with a fault at a position of the pattern, or it moves forward and
stays in the pattern. -/
def Advances (s : PatternText) (x : Spot) (m : Scan α) : Prop :=
  match (m x).run with
  | none => False
  | some (.error (_, position)) => position ≤ s.chars.size
  | some (.ok (_, y)) => x.pos < y.pos ∧ y.pos ≤ s.chars.size

/-- The characters that are ahead of a spot. -/
def ahead (s : PatternText) (x : Spot) : List Char := s.chars.toList.drop x.pos

theorem length_ahead (s : PatternText) (x : Spot) : (s.ahead x).length = s.chars.size - x.pos := by
  rw [ahead, List.length_drop, Array.length_toList]

theorem spot_ahead (hx : x.pos ≤ s.chars.size) :
    s.spot x.depth (s.ahead x) ⟨s.ahead x, x.nextGroup, x.named, x.context⟩ = x := by
  rw [spot, length_ahead, Nat.sub_sub_self hx]

/-- A scanner advances if the reader that it follows leaves less than it is given. -/
theorem Tracks.advances {m : Scan α} {r : Reader α} {P : α → Nat → Prop}
    (h : s.Tracks x.depth (s.ahead x) m r P) (hx : x.pos ≤ s.chars.size)
    (hP : ∀ a left, P a left → left < (s.ahead x).length) : s.Advances x m := by
  have hrun := h ⟨s.ahead x, x.nextGroup, x.named, x.context⟩ (List.drop_suffix _ _)
  dsimp only at hrun
  rw [spot_ahead hx] at hrun
  split at hrun
  · rw [Advances, hrun.1]
    exact hrun.2
  · rename_i a c' _
    have hleft := hP a _ hrun.2.2
    rw [length_ahead] at hleft
    rw [Advances, hrun.1]
    refine ⟨?_, Nat.sub_le _ _⟩
    show x.pos < s.chars.size - c'.rest.length
    omega

/-- A term, an atom of a class and an escape move forward wherever they are read, also where a
character is put back on the way. -/
theorem advances (s : PatternText) {x : Spot} (hx : x.pos ≤ s.chars.size)
    (hdepth : x.depth ≤ nestingLimit) :
    s.Advances x s.scanTerm ∧ s.Advances x s.scanClassAtom ∧
      (s.chars[x.pos]? = some '\\' → s.Advances x s.scanEscape) := by
  have hgroup (rest : List Char) := tracks_scanGroup (s := s) (nestingLimit - x.depth)
    (Nat.add_sub_cancel' hdepth) rest
  refine ⟨?_, ?_, ?_⟩
  · exact (tracks_scanTerm hgroup _).advances hx fun _ _ h => h
  · exact (tracks_scanClassAtom _).advances hx fun _ _ h => h
  · intro hslash
    obtain ⟨rest, hrest⟩ : ∃ rest, s.ahead x = '\\' :: rest := by
      apply List.head?_eq_some_iff.mp
      rw [ahead, List.head?_drop, Array.getElem?_toList, hslash]
    have hescape := @tracks_scanEscape s x.depth rest
    rw [← hrest] at hescape
    apply hescape.advances hx
    intro _ left h
    rw [hrest]
    exact Nat.lt_succ_of_le h.1

end PatternText

/-! ### Patterns -/

/-- A source is read to a tree or an error, in range and with progress. -/
structure Source.ReadInRange (s : Source) : Prop where
  /-- Reading by position ends without leaving the pattern, and its result is that of parsing. -/
  total : s.scan = some s.parse
  /-- An error shows the pattern and a position of it. -/
  located : ∀ e, s.parse = .error e →
    e.pattern = s.pattern ∧ e.position ≤ s.pattern.toList.length
  /-- Terms, atoms of classes and escapes fail in range or move forward in range. -/
  advances : ∀ x : Spot, x.pos ≤ s.text.chars.size → x.depth ≤ nestingLimit →
    s.text.Advances x s.text.scanTerm ∧ s.text.Advances x s.text.scanClassAtom ∧
      (s.text.chars[x.pos]? = some '\\' → s.text.Advances x s.text.scanEscape)
  /-- In an accepted pattern not too many parentheses are open at a time. -/
  nested : ∀ p, s.parse = .ok p → mostOpen 0 (parens false s.pattern.toList) ≤ nestingLimit
  /-- A pattern with too many is rejected. -/
  rejected : nestingLimit < mostOpen 0 (parens false s.pattern.toList) →
    ∃ e, s.parse = .error e

/-- Every source is read to its end or to an error. -/
theorem Source.readInRange (s : Source) : s.ReadInRange where
  total := s.scan_eq
  located := fun _ => Source.located_of_parse
  advances := fun _ => s.text.advances
  nested := fun _ => Source.mostOpen_of_parse
  rejected := by
    intro hmany
    cases hparse : s.parse with
    | error e => exact ⟨e, rfl⟩
    | ok p => exact absurd (Source.mostOpen_of_parse hparse) (Nat.not_le_of_lt hmany)

end UnitRegex
