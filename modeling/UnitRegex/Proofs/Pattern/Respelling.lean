import UnitRegex.Proofs.Pattern.Mirrors

/-!
Patterns in two spellings. The terms, branches and groups of a pattern are read alike in front of
both, hence so is the pattern: `[^\w]` may stand for `\W` wherever that stands outside a class. The
two denote one set unless case is ignored in unicode mode, where two characters that are no word
characters have the case forms of some that are.
-/

namespace UnitRegex

open Reader

variable {s s' : Setting} {inClass : Bool} {n m : Nat} {x y : List Char}

/-! ### Atoms -/

theorem readAtom_notWord (group : Reader Term) {cursor : Cursor}
    (h : cursor.rest = '\\' :: 'W' :: x) :
    readAtom group s cursor =
      .ok (s.flags.unitTerm CharSet.word.complement, { cursor with rest := x }) := by
  cases cursor
  cases h
  rfl

theorem readAtom_exceptWord (group : Reader Term) {cursor : Cursor}
    (h : cursor.rest = '[' :: '^' :: '\\' :: 'w' :: ']' :: x) :
    readAtom group s cursor =
      .ok (.unit (s.flags.closure (.ofIntervals CharSet.word.intervals)).complement,
        { cursor with rest := x }) := by
  cases cursor
  cases h
  obtain ⟨⟨_, _, _, _, unicode, _⟩, _, _⟩ := s
  cases unicode <;> rfl

/-- Complementing word characters and closing the set under case equivalence can be done in either
order. -/
theorem Flags.unitTerm_notWord {f : Flags} (hf : f.ignoreCase = true → f.unicode = false) :
    f.unitTerm CharSet.word.complement =
      .unit (f.closure (.ofIntervals CharSet.word.intervals)).complement := by
  have hword : CharSet.ofIntervals CharSet.word.intervals = CharSet.word :=
    CharSet.ext_mem fun c => CharSet.mem_ofIntervals
  rw [hword, closure_eq hf CharSet.folded_word]
  exact congrArg Term.unit (closure_eq hf CharSet.folded_word.complement)

theorem Respelled.isSome_readBraces? (h : Respelled inClass n m x y) :
    (UnitRegex.readBraces? x).isSome = (UnitRegex.readBraces? y).isSome := by
  rcases h.readBraces? with ⟨hx, hy⟩ | ⟨_, _, _, hx, hy, -⟩
  · rw [hx, hy]
  · rw [hx, hy]
    rfl

/-- Readers of what stands in parentheses. -/
def Grouping (s s' : Setting) (group group' : Reader Term) : Prop :=
  ∀ {n m : Nat} {x y : List Char}, Respelled false n m x y →
    Mirrors s s' group group' ('(' :: x) ('(' :: y) fun _ => Respelled false n m

variable {group group' : Reader Term}

theorem mirrors_readEscape_nil :
    Mirrors s s' readEscape readEscape [] y fun _ _ _ => False := by
  apply Mirrors.read
  apply Mirrors.get
  intro cursor hcursor
  rw [hcursor]
  exact .fail

/-- A character that stands for itself. -/
theorem mirrors_literal (hs : s.Alike s') {c : Char} (h : Respelled false n m x y) :
    Mirrors s s'
      (if (c == '{' && (readBraces? x).isSome) = true then fail .nothingToRepeat
        else if (s.flags.unicode && (c == '{' || c == '}' || c == ']')) = true then
          fail .loneQuantifierBracket
        else do moveTo x; return s.flags.literalTerm c.toNat)
      (if (c == '{' && (readBraces? y).isSome) = true then fail .nothingToRepeat
        else if (s'.flags.unicode && (c == '{' || c == '}' || c == ']')) = true then
          fail .loneQuantifierBracket
        else do moveTo y; return s'.flags.literalTerm c.toNat) (c :: x) (c :: y)
      fun _ => Shortened false (n + 1) (m + 1) := by
  rw [h.isSome_readBraces?, hs.flags]
  split
  · exact .fail
  split
  · exact .fail
  · exact .moveTo (.pure ⟨n, m, by omega, by omega, h⟩)

theorem mirrors_readAtom_complement (hs : s.Alike s')
    (hflags : s.flags.ignoreCase = true → s.flags.unicode = false) (h : Respelled false n m x y) :
    Mirrors s s' (readAtom group) (readAtom group') ('\\' :: 'W' :: x)
      ('[' :: '^' :: '\\' :: 'w' :: ']' :: y) fun _ => Respelled false n m := by
  intro c a d hc hrun
  rw [readAtom_notWord group hc] at hrun
  cases hrun
  refine ⟨y, ?_, h⟩
  rw [readAtom_exceptWord group' rfl, ← hs.flags, Flags.unitTerm_notWord hflags]

theorem mirrors_readAtom (hs : s.Alike s')
    (hflags : s.flags.ignoreCase = true → s.flags.unicode = false)
    (hgroup : Grouping s s' group group') (h : Respelled false n m x y) :
    Mirrors s s' (readAtom group) (readAtom group') x y fun _ => Shortened false n m := by
  have hshort {n' m' : Nat} (hn : n' < n) (hm : m' < m) (_ : Term) (x' y' : List Char)
      (hrest : Respelled false n' m' x' y') : Shortened false n m x' y' := ⟨n', m', hn, hm, hrest⟩
  cases h
  case complement h =>
    exact (mirrors_readAtom_complement hs hflags h).imp (hshort (by omega) (by omega))
  all_goals
    apply Mirrors.read
    apply Mirrors.get
    intro cursor hcursor
    rw [hcursor]
    dsimp only
  case empty => exact .fail
  case slash => exact .moveTo (mirrors_readEscape_nil.imp fun _ _ _ hfalse => hfalse.elim)
  case escape c h =>
    exact .moveTo ((mirrors_readEscape hs c h).imp (hshort (by omega) (by omega)))
  case opens h => exact (mirrors_readClass hs h _ _).imp (hshort (by omega) (by omega))
  case closes h => exact mirrors_literal hs h
  case ordinary c hc h =>
    by_cases hparen : c = '('
    · subst hparen
      exact (hgroup h).imp (hshort (by omega) (by omega))
    by_cases hdot : c = '.'
    · subst hdot
      simp only [hs.flags]
      exact .moveTo (.pure (hshort (by omega) (by omega) (.unit .full) _ _ h))
    by_cases hstar : c = '*'
    · subst hstar
      exact .fail
    by_cases hplus : c = '+'
    · subst hplus
      exact .fail
    by_cases hmark : c = '?'
    · subst hmark
      exact .fail
    obtain ⟨hslash, hopen, hclose⟩ := hc.ne
    simp only
    exact mirrors_literal hs h

/-! ### Terms -/

theorem mirrors_readAnchor (hs : s.Alike s') (kind : Anchor) (h : Respelled false n m x y)
    (start start' : List Char) :
    Mirrors s s' (readAnchor kind x) (readAnchor kind y) start start'
      fun _ => Respelled false n m := by
  have hdone {x' y' : List Char} (hrest : Respelled false n m x' y') :
      Mirrors s s' (if startsQuantifier x then fail .nothingToRepeat else return Term.anchor kind)
        (if startsQuantifier y then fail .nothingToRepeat else return Term.anchor kind) x' y'
        fun _ => Respelled false n m := by
    rw [h.startsQuantifier]
    split
    · exact .fail
    · exact .pure hrest
  apply Mirrors.moveTo
  apply Mirrors.read
  dsimp only
  rw [hs.flags]
  split
  · exact (Mirrors.change (fun _ _ => rfl) h).bind fun _ _ _ hrest => hdone hrest
  · exact hdone h

variable (hs : s.Alike s') (hflags : s.flags.ignoreCase = true → s.flags.unicode = false)
  (hgroup : Grouping s s' group group')
include hs hflags hgroup

theorem mirrors_readTerm (h : Respelled false n m x y) :
    Mirrors s s' (readTerm group) (readTerm group') x y fun _ => Shortened false n m := by
  apply Mirrors.get
  intro cursor hcursor
  rw [hcursor]
  dsimp only
  have hanchor (kind : Anchor) {n' m' : Nat} {x' y' : List Char} (hn : n' < n) (hm : m' < m)
      (hrest : Respelled false n' m' x' y') :
      Mirrors s s' (readAnchor kind x') (readAnchor kind y') x y fun _ => Shortened false n m :=
    (mirrors_readAnchor hs kind hrest x y).imp fun _ _ _ hdone => ⟨n', m', hn, hm, hdone⟩
  rcases h.begins (c := '^') (by decide) with ⟨_, _, x, y, hn, hm, rfl, rfl, hrest⟩ | ⟨hx, hy⟩
  · exact hanchor _ hn hm hrest
  rcases h.begins (c := '$') (by decide) with ⟨_, _, x, y, hn, hm, rfl, rfl, hrest⟩ | ⟨hx₁, hy₁⟩
  · exact hanchor _ hn hm hrest
  rcases h.escapes (c := 'b') (by decide) with ⟨_, _, x, y, hn, hm, rfl, rfl, hrest⟩ | ⟨hx₂, hy₂⟩
  · exact hanchor _ hn hm hrest
  rcases h.escapes (c := 'B') (by decide) with ⟨_, _, x, y, hn, hm, rfl, rfl, hrest⟩ | ⟨hx₃, hy₃⟩
  · exact hanchor _ hn hm hrest
  simp only
  apply (mirrors_readAtom hs hflags hgroup h).bind
  rintro atom x' y' ⟨n', m', hn, hm, hrest⟩
  apply (mirrors_readQuantifier hs hrest).bind
  intro repeats x'' y'' hrest'
  split
  · exact .pure ⟨n', m', hn, hm, hrest'⟩
  · apply Mirrors.read
    rw [hs.flags]
    split
    · exact .fail
    · exact .pure ⟨n', m', hn, hm, hrest'⟩

omit hs hflags hgroup in
/-- At the end of the text no term is read. -/
theorem readTerms_nil (ahead : List Char) (terms : List Term) {c : Cursor} (h : c.rest = []) :
    readTerms group ahead terms s c = .ok (Branch.ofList terms.reverse, c) := by
  cases ahead with
  | nil => rfl
  | cons _ ahead =>
    refine bind_eq_ok.mpr ⟨c, c, rfl, ?_⟩
    rw [h]
    rfl

theorem mirrors_readTerms {ahead ahead' : List Char} (hn : n ≤ ahead.length)
    (hm : m ≤ ahead'.length) (terms : List Term) (h : Respelled false n m x y) :
    Mirrors s s' (readTerms group ahead terms) (readTerms group' ahead' terms) x y
      fun _ => Respelled false n m := by
  induction ahead generalizing ahead' n m x y terms with
  | nil =>
    obtain rfl : n = 0 := Nat.le_zero.mp hn
    cases h
    intro c b d hc hrun
    cases hrun
    exact ⟨[], readTerms_nil ahead' terms rfl, by rw [hc]; exact .empty⟩
  | cons a ahead ih =>
    by_cases hend : y = []
    · subst hend
      cases h
      intro c b d hc hrun
      rw [readTerms_nil (a :: ahead) terms hc] at hrun
      cases hrun
      exact ⟨[], readTerms_nil ahead' terms rfl, by rw [hc]; exact .empty⟩
    · have hpos : y.length ≤ m := h.length_le.2
      obtain ⟨a', ahead', rfl⟩ := List.exists_cons_of_length_pos
        (Nat.lt_of_lt_of_le (List.length_pos_iff.mpr hend) (Nat.le_trans hpos hm))
      rw [List.length_cons] at hn hm
      have hend' : x = [] → False := by
        rintro rfl
        cases h
        exact hend rfl
      apply Mirrors.get
      intro cursor hcursor
      rw [hcursor]
      dsimp only
      rcases h.begins (c := '|') (by decide) with ⟨_, _, x, y, -, -, rfl, rfl, -⟩ | ⟨hx, hy⟩
      · exact .pure h
      rcases h.begins (c := ')') (by decide) with ⟨_, _, x, y, -, -, rfl, rfl, -⟩ | ⟨hx', hy'⟩
      · exact .pure h
      simp only
      apply (mirrors_readTerm hs hflags hgroup h).bind
      rintro t x' y' ⟨n', m', hn', hm', hrest⟩
      exact (ih (by omega) (by omega) _ hrest).imp fun _ _ _ hdone => hdone.wider hn' hm'

theorem mirrors_readBranches {ahead ahead' : List Char} (hn : n < ahead.length)
    (hm : m < ahead'.length) (h : Respelled false n m x y) :
    Mirrors s s' (readBranches group ahead) (readBranches group' ahead') x y
      fun _ => Respelled false n m := by
  induction ahead generalizing ahead' n m x y with
  | nil => exact absurd hn (Nat.not_lt_zero _)
  | cons a ahead ih =>
    obtain ⟨a', ahead', rfl⟩ := List.exists_cons_of_length_pos (Nat.zero_lt_of_lt hm)
    rw [List.length_cons] at hn hm
    apply Mirrors.get
    intro cursor hcursor
    rw [hcursor]
    obtain ⟨hx, hy⟩ := h.length_le
    apply (mirrors_readTerms hs hflags hgroup (Nat.le_refl _) (Nat.le_refl _) [] h.tight).bind
    intro branch x' y' hrest
    apply (Mirrors.accept (by decide) (hrest.mono hx hy)).bind
    intro bar x'' y'' hbar
    cases bar with
    | false => exact .pure hbar
    | true =>
      obtain ⟨n', m', hn', hm', hrest'⟩ := hbar
      apply (ih (by omega) (by omega) hrest').bind
      intro more _ _ hdone
      exact .pure (hdone.wider hn' hm')

theorem mirrors_readChoice (h : Respelled false n m x y) :
    Mirrors s s' (readChoice group) (readChoice group') x y fun _ => Respelled false n m := by
  apply Mirrors.get
  intro cursor hcursor
  rw [hcursor]
  obtain ⟨hx, hy⟩ := h.length_le
  exact (mirrors_readBranches hs hflags hgroup (Nat.lt_succ_self _) (Nat.lt_succ_self _)
    h.tight).imp fun _ _ _ hdone => hdone.mono hx hy

/-! ### Groups -/

omit hflags hgroup in
/-- A reader of choices gives the same in front of two spellings of a choice. -/
def Choosing (s s' : Setting) (choice choice' : Reader Choice) : Prop :=
  ∀ {n m : Nat} {x y : List Char}, Respelled false n m x y →
    Mirrors s s' choice choice' x y fun _ => Respelled false n m

variable {choice choice' : Reader Choice} (hchoice : Choosing s s' choice choice')
omit hs hflags hgroup
include hchoice

theorem mirrors_readLook (behind negated : Bool) (h : Respelled false n m x y) :
    Mirrors s s' (readLook choice behind negated) (readLook choice' behind negated) x y
      fun _ => Respelled false n m := by
  apply (hchoice h).bind
  intro body x' y' hrest
  have hdone {x' y' : List Char} (hrest : Respelled false n m x' y') :
      Mirrors s s' (pure (Term.look behind negated body)) (pure (.look behind negated body)) x' y'
        fun _ => Respelled false n m := .pure hrest
  dsimp only
  split
  · split
    · exact (Mirrors.change (fun _ _ => rfl) hrest).bind fun _ _ _ hrest => hdone hrest
    · exact hdone hrest
  · exact hdone hrest

omit hchoice in
theorem mirrors_newGroup (h : Respelled false n m x y) :
    Mirrors s s' newGroup newGroup x y fun _ => Respelled false n m := by
  apply Mirrors.get
  intro cursor _
  exact (Mirrors.change (fun _ _ => rfl) h).bind fun _ _ _ hrest => .pure hrest

theorem mirrors_readGroupBody (h : Respelled false n m x y) :
    Mirrors s s' (readGroupBody choice) (readGroupBody choice') x y
      fun _ => Respelled false n m := by
  have hgroup (capture : Option Nat) {x y : List Char} (h : Respelled false n m x y) :
      Mirrors s s' (do return .group capture none (← choice))
        (do return .group capture none (← choice')) x y fun _ : Term => Respelled false n m :=
    (hchoice h).bind fun _ _ _ hrest => .pure hrest
  apply Mirrors.get
  intro cursor hcursor
  rw [hcursor]
  dsimp only
  rcases h.begins (c := '?') (by decide) with ⟨_, _, x, y, hn, hm, rfl, rfl, hmark⟩ | ⟨hx, hy⟩
  · replace hmark := hmark.wider hn hm
    rcases hmark.begins (c := ':') (by decide) with
      ⟨_, _, x, y, hn, hm, rfl, rfl, hrest⟩ | ⟨hx, hy⟩
    · exact .moveTo (hgroup none (hrest.wider hn hm))
    rcases hmark.begins (c := '=') (by decide) with
      ⟨_, _, x, y, hn, hm, rfl, rfl, hrest⟩ | ⟨hx₁, hy₁⟩
    · exact .moveTo (mirrors_readLook hchoice _ _ (hrest.wider hn hm))
    rcases hmark.begins (c := '!') (by decide) with
      ⟨_, _, x, y, hn, hm, rfl, rfl, hrest⟩ | ⟨hx₂, hy₂⟩
    · exact .moveTo (mirrors_readLook hchoice _ _ (hrest.wider hn hm))
    rcases hmark.begins (c := '<') (by decide) with
      ⟨_, _, x, y, hn, hm, rfl, rfl, hless⟩ | ⟨hx₃, hy₃⟩
    · replace hless := hless.wider hn hm
      rcases hless.begins (c := '=') (by decide) with
        ⟨_, _, x, y, hn, hm, rfl, rfl, hrest⟩ | ⟨hx, hy⟩
      · exact .moveTo (mirrors_readLook hchoice _ _ (hrest.wider hn hm))
      rcases hless.begins (c := '!') (by decide) with
        ⟨_, _, x, y, hn, hm, rfl, rfl, hrest⟩ | ⟨hx', hy'⟩
      · exact .moveTo (mirrors_readLook hchoice _ _ (hrest.wider hn hm))
      simp only
      apply Mirrors.moveTo
      apply (mirrors_readGroupName hless).bind
      rintro name x' y' ⟨-, hrest⟩
      apply Mirrors.get
      intro cursor _
      dsimp only
      split
      · exact .fail
      · apply (mirrors_newGroup hrest).bind
        intro number x'' y'' hrest'
        exact (Mirrors.change (fun _ _ => rfl) hrest').bind fun _ _ _ hrest'' =>
          hgroup (some number) hrest''
    · simp only [hx₃, hy₃, imp_self, implies_true]
      exact .moveTo .fail
  · simp only [hx, hy, imp_self, implies_true]
    apply (mirrors_newGroup h).bind
    intro number x' y' hrest
    exact hgroup (some number) hrest

omit hchoice in
theorem grouping_readGroup (hs : s.Alike s')
    (hflags : s.flags.ignoreCase = true → s.flags.unicode = false) (depth : Nat) :
    Grouping s s' (readGroup depth) (readGroup depth) := by
  induction depth with
  | zero => exact fun _ => .fail
  | succ depth ih =>
    intro n m x y h
    apply Mirrors.get
    intro cursor hcursor
    apply Mirrors.discardAccept
    apply (mirrors_readGroupBody (fun h => mirrors_readChoice hs hflags ih h) h).bind
    intro t x' y' hrest
    apply (Mirrors.acceptAny (by decide) hrest).bind
    intro closed x'' y'' hrest'
    split
    · exact .pure hrest'
    · exact .read .throw

omit hchoice in
theorem mirrors_readPattern (hs : s.Alike s')
    (hflags : s.flags.ignoreCase = true → s.flags.unicode = false) (h : Respelled false n m x y) :
    Mirrors s s' readPattern readPattern x y fun _ => Respelled false n m := by
  apply (mirrors_readChoice hs hflags (grouping_readGroup hs hflags nestingLimit) h).bind
  intro body x' y' hrest
  apply Mirrors.get
  intro cursor hcursor
  rw [hcursor]
  split
  · rename_i hend
    obtain rfl := List.isEmpty_iff.mp hend
    cases hrest
    exact .pure .empty
  · exact .fail

omit hchoice in
/-- Wherever `\W` stands outside a class, `[^\w]` may stand instead, unless case is ignored in
unicode mode. -/
theorem Source.parse_of_respelled {p q : String} {flags : Flags} {options options' : Options}
    (hflags : flags.ignoreCase = true → flags.unicode = false)
    (h : Respelled false n m p.toList q.toList) {pattern : Pattern}
    (hparse : Source.parse ⟨p, flags, options⟩ = .ok pattern) :
    Source.parse ⟨q, flags, options'⟩ = .ok pattern := by
  unfold Source.parse at hparse ⊢
  dsimp only at hparse ⊢
  split at hparse
  · cases hparse
  · rename_i body cursor hrun
    cases hparse
    have hs : Setting.Alike ⟨flags, p.toList.length, scanGroups p.toList⟩
        ⟨flags, q.toList.length, scanGroups q.toList⟩ := ⟨rfl, h.scanGroups⟩
    obtain ⟨rest, hrun', -⟩ := mirrors_readPattern hs hflags h _ _ _ rfl hrun
    have hrun' : (readPattern.run ⟨flags, q.toList.length, scanGroups q.toList⟩).run
        { rest := q.toList } = .ok (body, { cursor with rest := rest }) := hrun'
    rw [hrun', h.scanGroups.count]

end UnitRegex
