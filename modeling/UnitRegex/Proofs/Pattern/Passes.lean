import UnitRegex.Proofs.Pattern.Skims

/-!
A pattern is read along the parentheses of its text. The groups of the tree open and close where
those of the text do and have the numbers that the first pass gives them.
-/

namespace UnitRegex

/-- What the first pass finds, as a cursor can tell: the groups that were made and those ahead. -/
def Cursor.scan (c : Cursor) : GroupScan :=
  (parens false c.rest).foldl GroupScan.meet ⟨c.nextGroup - 1, c.named⟩

/-- On the way from one cursor to another stand given brackets of capture groups; the groups were
made as the first pass counts them, with different names. -/
structure Cursor.Passes (c c' : Cursor) (row : List Bracket) : Prop where
  nextGroup : c.nextGroup ≤ c'.nextGroup
  row : ∀ pending, brackets pending c.nextGroup (parens false c.rest) =
    row ++ brackets pending c'.nextGroup (parens false c'.rest)
  scan : 1 ≤ c.nextGroup → c.scan = c'.scan
  distinct : (c.named.map (·.1)).Nodup → (c'.named.map (·.1)).Nodup

namespace Cursor.Passes

variable {c c' d : Cursor} {row row' : List Bracket} {chars rest after : List Char}

theorem still (hparens : parens false c'.rest = parens false c.rest)
    (hgroup : c'.nextGroup = c.nextGroup) (hnamed : c'.named = c.named) : c.Passes c' [] where
  nextGroup := Nat.le_of_eq hgroup.symm
  row := by
    intro pending
    rw [hparens, hgroup, List.nil_append]
  scan := by
    intro _
    rw [Cursor.scan, Cursor.scan, hparens, hgroup, hnamed]
  distinct := by
    rw [hnamed]
    exact id

theorem trans (h : c.Passes d row) (h' : d.Passes c' row') : c.Passes c' (row ++ row') where
  nextGroup := Nat.le_trans h.nextGroup h'.nextGroup
  row := by
    intro pending
    rw [h.row, h'.row, List.append_assoc]
  scan := by
    intro hc
    rw [h.scan hc, h'.scan (Nat.le_trans hc h.nextGroup)]
  distinct := h'.distinct ∘ h.distinct

/-- A pair of parentheses that is no capture group leaves no brackets. -/
theorem enclose (h : d.Passes c' row) (hc : c.rest = '(' :: chars)
    (hopens : opensGroup chars = false) (hparens : parens false d.rest = parens false chars)
    (hgroup : d.nextGroup = c.nextGroup) (hnamed : d.named = c.named)
    (hclose : c'.rest = ')' :: after) :
    c.Passes { c' with rest := after } row where
  nextGroup := hgroup ▸ h.nextGroup
  row := by
    intro pending
    have hrow := h.row (none :: pending)
    simp only [hparens, hgroup, hclose, parens_closing, brackets] at hrow
    simp only [hc, parens_opening, brackets, hopens, Bool.false_eq_true, if_false, hrow]
  scan := by
    intro hpos
    have hscan := h.scan (hgroup ▸ hpos)
    simp only [Cursor.scan, hparens, hgroup, hnamed, hclose, parens_closing, List.foldl_cons]
      at hscan
    simp only [Cursor.scan, hc, parens_opening, List.foldl_cons]
    rw [GroupScan.meet, GroupScan.note_of_not_opens _ hopens, hscan]
    rfl
  distinct := hnamed ▸ h.distinct

/-- A capture group has the number that was next in front of it. -/
theorem capture (h : d.Passes c' row) (hc : c.rest = '(' :: chars)
    (hopens : opensGroup chars = true) (hparens : parens false d.rest = parens false chars)
    (hgroup : d.nextGroup = c.nextGroup + 1)
    (hnote : 1 ≤ c.nextGroup →
      GroupScan.note ⟨c.nextGroup - 1, c.named⟩ chars = ⟨c.nextGroup, d.named⟩)
    (hdistinct : (c.named.map (·.1)).Nodup → (d.named.map (·.1)).Nodup)
    (hclose : c'.rest = ')' :: after) :
    c.Passes { c' with rest := after }
      (.opens c.nextGroup :: (row ++ [.closes c.nextGroup])) where
  nextGroup := by
    have hle := h.nextGroup
    rw [hgroup] at hle
    exact Nat.le_trans (Nat.le_succ _) hle
  row := by
    intro pending
    have hrow := h.row (some c.nextGroup :: pending)
    simp only [hparens, hgroup, hclose, parens_closing, brackets] at hrow
    simp only [hc, parens_opening, brackets, hopens, if_true, hrow, List.cons_append,
      List.append_assoc, List.nil_append]
  scan := by
    intro hpos
    have hscan := h.scan (by rw [hgroup]; exact Nat.le_add_left 1 _)
    simp only [Cursor.scan, hparens, hgroup, hclose, parens_closing, List.foldl_cons,
      Nat.add_sub_cancel] at hscan
    simp only [Cursor.scan, hc, parens_opening, List.foldl_cons]
    rw [GroupScan.meet, hnote hpos, hscan]
    rfl
  distinct := h.distinct ∘ hdistinct

end Cursor.Passes

namespace Reader

variable {α β : Type} {s : Setting} {chars : List Char}

/-- Started in front of some characters, a reader passes brackets that go with what it gives. -/
def Outlines (s : Setting) (m : Reader α) (chars : List Char) (P : List Bracket → α → Prop) :
    Prop :=
  ∀ c a c', c.rest = chars → m s c = .ok (a, c') → ∃ row, c.Passes c' row ∧ P row a

namespace Outlines

variable {P : List Bracket → α → Prop} {Q : List Bracket → β → Prop}

theorem pure {a : α} (h : P [] a) : Outlines s (Pure.pure a) chars P := by
  intro c b c' _ hrun
  obtain ⟨rfl, rfl⟩ := pure_eq_ok.mp hrun
  exact ⟨[], .still rfl rfl rfl, h⟩

theorem bind {m : Reader α} {f : α → Reader β} (hm : Outlines s m chars P)
    (hf : ∀ a row rest, P row a → Outlines s (f a) rest fun row' b => Q (row ++ row') b) :
    Outlines s (m >>= f) chars Q := by
  intro c b c' hc hrun
  obtain ⟨a, d, hma, hfa⟩ := bind_eq_ok.mp hrun
  obtain ⟨row, hpasses, ha⟩ := hm _ _ _ hc hma
  obtain ⟨row', hpasses', hb⟩ := hf a row d.rest ha _ _ _ rfl hfa
  exact ⟨row ++ row', hpasses.trans hpasses', hb⟩

theorem imp {P' : List Bracket → α → Prop} {m : Reader α} (h : Outlines s m chars P)
    (himp : ∀ row a, P row a → P' row a) : Outlines s m chars P' := by
  intro c a c' hc hrun
  obtain ⟨row, hpasses, ha⟩ := h _ _ _ hc hrun
  exact ⟨row, hpasses, himp row a ha⟩

theorem of_skims {m : Reader α} (h : Skims s false m chars (parens false chars) (P [])) :
    Outlines s m chars P := by
  intro c a c' hc hrun
  obtain ⟨hparens, hgroup, hnamed, ha⟩ := h _ _ _ hc hrun
  exact ⟨[], .still (hc ▸ hparens) hgroup hnamed, ha⟩

/-- What is skimmed first leaves no brackets. -/
theorem after {R : α → Prop} {m : Reader α} {f : α → Reader β}
    (hm : Skims s false m chars (parens false chars) R)
    (hf : ∀ a rest, R a → Outlines s (f a) rest Q) : Outlines s (m >>= f) chars Q :=
  (of_skims (P := fun row a => row = [] ∧ R a) (hm.imp fun _ ha => ⟨rfl, ha⟩)).bind
    fun a row rest ha => by
      obtain ⟨rfl, ha⟩ := ha
      exact hf a rest ha

theorem read {f : Setting → Reader β} (h : Outlines s (f s) chars Q) :
    Outlines s (MonadReader.read >>= f) chars Q := by
  intro c b c' hc hrun
  obtain ⟨a, d, hread, hfa⟩ := bind_eq_ok.mp hrun
  cases hread
  exact h _ _ _ hc hfa

theorem get {f : Cursor → Reader β}
    (h : ∀ cursor : Cursor, cursor.rest = chars → Outlines s (f cursor) chars Q) :
    Outlines s (MonadState.get >>= f) chars Q := by
  intro c b c' hc hrun
  obtain ⟨a, d, hget, hfa⟩ := bind_eq_ok.mp hrun
  cases hget
  exact h c hc _ _ _ hc hfa

end Outlines

/-! ### Terms -/

theorem skims_readAnchor (kind : Anchor) (start rest : List Char) :
    Skims s false (readAnchor kind rest) start (parens false rest) (Term.Outlined s []) := by
  have hdone {chars : List Char} (hchars : parens false chars = parens false rest) :
      Skims s false (if startsQuantifier rest then fail .nothingToRepeat else return .anchor kind)
        chars (parens false rest) (Term.Outlined s []) := by
    split
    · exact .fail
    · exact .pure hchars (Term.outlined_of_leaf rfl rfl trivial)
  apply Skims.moveTo
  apply Skims.read
  dsimp only
  split
  · exact (Skims.widenContext 1).bind fun _ _ _ hchars => hdone hchars
  · exact hdone rfl

variable {group : Reader Term}

/-- A closing parenthesis belongs to the group around it. -/
theorem outlines_readAtom (hgroup : ∀ rest, Outlines s group ('(' :: rest) (Term.Outlined s))
    (hchars : ∀ rest, chars ≠ ')' :: rest) :
    Outlines s (readAtom group) chars (Term.Outlined s) := by
  apply Outlines.read
  apply Outlines.get
  intro cursor hcursor
  rw [hcursor]
  split
  · exact hgroup _
  · exact .of_skims (skims_readClass _ _)
  · exact .of_skims (.moveTo (skims_readEscape _))
  · apply Outlines.of_skims
    apply Skims.moveTo
    apply Skims.pure (parens_plain (by decide)).symm
    apply outlined_unit
    intro _
    split
    · exact CharSet.folded_full
    · exact CharSet.folded_lineTerminators.complement
  · exact .of_skims .fail
  · exact .of_skims .fail
  · exact .of_skims .fail
  · rename_i c rest hleft hopen hslash _ _ _ _
    have hright : c ≠ ')' := by
      rintro rfl
      exact hchars rest rfl
    split
    · exact .of_skims .fail
    · split
      · exact .of_skims .fail
      · apply Outlines.of_skims
        apply Skims.moveTo
        exact .pure (parens_outside hslash hopen hleft hright).symm (Flags.outlined_literalTerm _)
  · exact .of_skims .fail

theorem outlines_readTerm (hgroup : ∀ rest, Outlines s group ('(' :: rest) (Term.Outlined s))
    (hchars : ∀ rest, chars ≠ ')' :: rest) :
    Outlines s (readTerm group) chars (Term.Outlined s) := by
  apply Outlines.get
  intro cursor hcursor
  rw [hcursor]
  have hanchor (kind : Anchor) {rest : List Char} (h : parens false rest = parens false chars) :
      Outlines s (readAnchor kind rest) chars (Term.Outlined s) :=
    .of_skims (h ▸ skims_readAnchor kind chars rest)
  split
  · exact hanchor _ (parens_plain (by decide)).symm
  · exact hanchor _ (parens_plain (by decide)).symm
  · exact hanchor _ (parens_escape _ _).symm
  · exact hanchor _ (parens_escape _ _).symm
  · apply (outlines_readAtom hgroup hchars).bind
    intro atom row rest hatom
    apply Outlines.after (skims_readQuantifier rest)
    intro repeats rest' _
    split
    · exact .pure (by rwa [List.append_nil])
    · apply Outlines.read
      split
      · exact .of_skims .fail
      · exact .pure (by
          rw [List.append_nil]
          exact Term.Outlined.repeated hatom _)

/-- The terms that are there already come first. -/
theorem outlines_readTerms (hgroup : ∀ rest, Outlines s group ('(' :: rest) (Term.Outlined s))
    (ahead : List Char) (terms : List Term) (chars : List Char) :
    Outlines s (readTerms group ahead terms) chars fun row b =>
      b.brackets = (Branch.ofList terms.reverse).brackets ++ row ∧
        ((∀ leaf ∈ (Branch.ofList terms.reverse).leaves, leaf.Fits s) →
          ∀ leaf ∈ b.leaves, leaf.Fits s) := by
  induction ahead generalizing terms chars with
  | nil => exact .pure ⟨(List.append_nil _).symm, id⟩
  | cons _ ahead ih =>
    apply Outlines.get
    intro cursor hcursor
    rw [hcursor]
    split
    · exact .pure ⟨(List.append_nil _).symm, id⟩
    · exact .pure ⟨(List.append_nil _).symm, id⟩
    · exact .pure ⟨(List.append_nil _).symm, id⟩
    · rename_i hright
      apply (outlines_readTerm hgroup fun rest => hright rest).bind
      intro t row rest ht
      obtain ⟨hrow, hleaves⟩ := ht
      apply (ih (t :: terms) rest).imp
      intro row' b hb
      rw [List.reverse_cons, Branch.brackets_ofList_concat, Branch.leaves_ofList_concat, hrow,
        List.append_assoc] at hb
      refine ⟨hb.1, ?_⟩
      intro hterms
      apply hb.2
      intro leaf hleaf
      rcases List.mem_append.mp hleaf with hleaf | hleaf
      · exact hterms leaf hleaf
      · exact hleaves leaf hleaf

theorem outlines_readBranches (hgroup : ∀ rest, Outlines s group ('(' :: rest) (Term.Outlined s))
    (ahead chars : List Char) :
    Outlines s (readBranches group ahead) chars (Choice.Outlined s) := by
  induction ahead generalizing chars with
  | nil =>
    apply Outlines.pure
    refine ⟨rfl, ?_⟩
    intro leaf hleaf
    cases hleaf
  | cons _ ahead ih =>
    apply Outlines.get
    intro cursor _
    apply (outlines_readTerms hgroup _ [] chars).bind
    intro b row rest hb
    obtain ⟨hrow, hleaves⟩ := hb
    have hleaves := hleaves (by intro leaf hleaf; cases hleaf)
    apply Outlines.after (Skims.accept (by decide))
    intro bar rest' _
    split
    · apply (ih rest').bind
      intro more row' rest'' hmore
      obtain ⟨hrow', hleaves'⟩ := hmore
      apply Outlines.pure
      refine ⟨?_, ?_⟩
      · rw [Choice.brackets, hrow, hrow', List.append_nil]
        rfl
      · intro leaf hleaf
        rcases List.mem_append.mp hleaf with hleaf | hleaf
        · exact hleaves leaf hleaf
        · exact hleaves' leaf hleaf
    · apply Outlines.pure
      refine ⟨?_, hleaves⟩
      rw [Choice.brackets, hrow, List.append_nil]
      rfl

theorem outlines_readChoice (hgroup : ∀ rest, Outlines s group ('(' :: rest) (Term.Outlined s))
    (chars : List Char) : Outlines s (readChoice group) chars (Choice.Outlined s) :=
  .get fun _ _ => outlines_readBranches hgroup _ _

/-! ### Groups -/

/-- A reader of what stands between two parentheses, the opening one of which is consumed. -/
def Encloses (s : Setting) (m : Reader Term) (chars : List Char) : Prop :=
  ∀ c t c' after, c.rest = chars → m s c = .ok (t, c') → c'.rest = ')' :: after →
    ∃ row, Cursor.Passes { c with rest := '(' :: chars } { c' with rest := after } row ∧
      t.Outlined s row

variable {choice : Reader Choice}

/-- A group without a number behind a prefix that is skimmed. -/
theorem encloses_plain {m : Reader Term} {rest : List Char} (hopens : opensGroup chars = false)
    (hchars : parens false chars = parens false rest) (hm : Outlines s m rest (Term.Outlined s)) :
    Encloses s (do moveTo rest; m) chars := by
  intro c t c' after hc hrun hclose
  obtain ⟨_, d, hmove, hrun⟩ := bind_eq_ok.mp hrun
  cases hmove
  obtain ⟨row, hpasses, ht⟩ := hm _ _ _ rfl hrun
  exact ⟨row, hpasses.enclose rfl hopens hchars.symm rfl rfl hclose, ht⟩

theorem Encloses.get {f : Cursor → Reader Term}
    (h : ∀ cursor : Cursor, cursor.rest = chars → Encloses s (f cursor) chars) :
    Encloses s (MonadState.get >>= f) chars := by
  intro c t c' after hc hrun hclose
  obtain ⟨a, d, hget, hrun⟩ := bind_eq_ok.mp hrun
  cases hget
  exact h c hc c t c' after hc hrun hclose

theorem Term.Outlined.capture {row : List Bracket} {body : Choice} (h : body.Outlined s row)
    (n : Nat) : (Term.group (some n) none body).Outlined s (.opens n :: (row ++ [.closes n])) :=
  ⟨by rw [Term.brackets, h.1], h.2⟩

/-- A group whose parenthesis is not followed by a question mark has the next number. -/
theorem encloses_unnamed (hchoice : ∀ chars, Outlines s choice chars (Choice.Outlined s))
    (hchars : ∀ rest, chars ≠ '?' :: rest) :
    Encloses s (do let n ← newGroup; return .group (some n) none (← choice)) chars := by
  intro c t c' after hc hrun hclose
  obtain ⟨n, d, hgroup, hrun⟩ := bind_eq_ok.mp hrun
  cases hgroup
  obtain ⟨body, d', hbody, hrun⟩ := bind_eq_ok.mp hrun
  obtain ⟨rfl, rfl⟩ := pure_eq_ok.mp hrun
  obtain ⟨row, hpasses, houtlined⟩ := hchoice _ _ _ _ rfl hbody
  subst hc
  obtain ⟨hopens, hnote⟩ := GroupScan.note_unnamed ⟨c.nextGroup - 1, c.named⟩ hchars
  have hcapture : 1 ≤ c.nextGroup →
      GroupScan.note ⟨c.nextGroup - 1, c.named⟩ c.rest = ⟨c.nextGroup, c.named⟩ := by
    intro hpos
    rw [hnote, Nat.sub_add_cancel hpos]
  exact ⟨_, hpasses.capture rfl hopens rfl rfl hcapture id hclose,
    Term.Outlined.capture houtlined _⟩

/-- A named group has the next number and adds its name. -/
theorem encloses_named (hchoice : ∀ chars, Outlines s choice chars (Choice.Outlined s))
    {rest : List Char} (hahead : ∀ more, rest ≠ '=' :: more) (hnot : ∀ more, rest ≠ '!' :: more) :
    Encloses s (do
      moveTo rest
      let name ← readGroupName
      if (← MonadState.get).named.any (·.1 == name) then fail .duplicateGroupName
      else
        let n ← newGroup
        modify fun c => { c with named := c.named ++ [(name, n)] }
        return .group (some n) none (← choice)) ('?' :: '<' :: rest) := by
  intro c t c' after hc hrun hclose
  obtain ⟨_, d, hmove, hrun⟩ := bind_eq_ok.mp hrun
  cases hmove
  obtain ⟨name, d, hname, hrun⟩ := bind_eq_ok.mp hrun
  obtain ⟨hrest, hgroup, hnamed, hname⟩ := @skims_readGroupName _ false rest _ _ _ rfl hname
  obtain ⟨cursor, d', hget, hrun⟩ := bind_eq_ok.mp hrun
  cases hget
  split at hrun
  · obtain ⟨_, _, -, hthrow⟩ := bind_eq_ok.mp hrun
    cases hthrow
  · rename_i hfresh
    obtain ⟨n, d', hgroup', hrun⟩ := bind_eq_ok.mp hrun
    cases hgroup'
    obtain ⟨_, d', hnoted, hrun⟩ := bind_eq_ok.mp hrun
    cases hnoted
    obtain ⟨body, d', hbody, hrun⟩ := bind_eq_ok.mp hrun
    obtain ⟨rfl, rfl⟩ := pure_eq_ok.mp hrun
    obtain ⟨row, hpasses, houtlined⟩ := hchoice _ _ _ _ rfl hbody
    obtain ⟨hopens, hnote⟩ := GroupScan.note_named ⟨c.nextGroup - 1, c.named⟩ hahead hnot
    have hcapture : 1 ≤ c.nextGroup →
        GroupScan.note ⟨c.nextGroup - 1, c.named⟩ ('?' :: '<' :: rest) =
          ⟨c.nextGroup, d.named ++ [(name, d.nextGroup)]⟩ := by
      intro hpos
      rw [hnote, Nat.sub_add_cancel hpos, hname, hnamed, hgroup]
    have hdistinct : (c.named.map (·.1)).Nodup →
        ((d.named ++ [(name, d.nextGroup)]).map (·.1)).Nodup := by
      intro hnodup
      rw [hnamed] at hfresh ⊢
      rw [List.map_append, List.nodup_append]
      refine ⟨hnodup, by simp, ?_⟩
      intro given hgiven added hadded
      obtain rfl := List.mem_singleton.mp hadded
      rintro rfl
      exact hfresh (List.any_eq_true.mpr (by simpa using hgiven))
    have hskip : parens false d.rest = parens false ('?' :: '<' :: rest) := by
      rw [hrest, parens_plain (c := '?') (by decide), parens_plain (c := '<') (by decide)]
    refine ⟨_, hpasses.capture rfl hopens hskip (congrArg (· + 1) hgroup) hcapture hdistinct hclose,
      ?_⟩
    rw [hgroup]
    exact Term.Outlined.capture houtlined _

theorem outlines_readLook (hchoice : ∀ chars, Outlines s choice chars (Choice.Outlined s))
    (behind negated : Bool) (chars : List Char) :
    Outlines s (readLook choice behind negated) chars (Term.Outlined s) := by
  apply (hchoice chars).bind
  intro body row rest hbody
  have hdone (rest : List Char) : Outlines s (pure (.look behind negated body)) rest
      fun row' t => Term.Outlined s (row ++ row') t :=
    .pure (by rwa [List.append_nil])
  dsimp only
  split
  · split
    · exact .after (Skims.widenContext _) fun _ rest _ => hdone rest
    · exact hdone rest
  · exact hdone rest

theorem outlines_bare (hchoice : ∀ chars, Outlines s choice chars (Choice.Outlined s))
    (chars : List Char) :
    Outlines s (do return .group none none (← choice)) chars (Term.Outlined s) := by
  apply (hchoice chars).bind
  intro body row rest hbody
  exact .pure (by rwa [List.append_nil])

theorem encloses_readGroupBody (hchoice : ∀ chars, Outlines s choice chars (Choice.Outlined s))
    (chars : List Char) : Encloses s (readGroupBody choice) chars := by
  apply Encloses.get
  intro cursor hcursor
  rw [hcursor]
  split
  · exact encloses_plain rfl (by simp [parens]) (outlines_bare hchoice _)
  · exact encloses_plain rfl (by simp [parens]) (outlines_readLook hchoice _ _ _)
  · exact encloses_plain rfl (by simp [parens]) (outlines_readLook hchoice _ _ _)
  · exact encloses_plain rfl (by simp [parens]) (outlines_readLook hchoice _ _ _)
  · exact encloses_plain rfl (by simp [parens]) (outlines_readLook hchoice _ _ _)
  · rename_i rest hahead hnot
    exact encloses_named hchoice hahead hnot
  · intro c t c' after _ hrun _
    obtain ⟨_, d, _, hrun⟩ := bind_eq_ok.mp hrun
    obtain ⟨_, d, _, hthrow⟩ := bind_eq_ok.mp hrun
    cases hthrow
  · rename_i hquestion
    exact encloses_unnamed hchoice hquestion

/-- Groups may nest as long as they close. -/
theorem outlines_readGroup (depth : Nat) (rest : List Char) :
    Outlines s (readGroup depth) ('(' :: rest) (Term.Outlined s) := by
  induction depth generalizing rest with
  | zero => exact .of_skims .fail
  | succ depth ih =>
    intro c t c' hc hrun
    obtain ⟨cursor, d, hget, hrun⟩ := bind_eq_ok.mp hrun
    cases hget
    obtain ⟨_, d, hdiscard, hrun⟩ := bind_eq_ok.mp hrun
    obtain rfl := eq_of_discard_accept hc hdiscard
    obtain ⟨body, d, hbody, hrun⟩ := bind_eq_ok.mp hrun
    obtain ⟨closed, d', hclose, hrun⟩ := bind_eq_ok.mp hrun
    rcases accept_eq_ok hclose with ⟨rfl, after, hafter, rfl⟩ | ⟨rfl, -, -⟩
    · obtain ⟨rfl, rfl⟩ := pure_eq_ok.mp hrun
      obtain ⟨row, hpasses, ht⟩ :=
        encloses_readGroupBody (outlines_readChoice ih) rest _ _ _ after rfl hbody hafter
      rw [← hc] at hpasses
      exact ⟨row, hpasses, ht⟩
    · cases hrun

end Reader

/-- What stays fixed while a source is read. -/
def Source.setting (s : Source) : Setting :=
  ⟨s.flags, s.pattern.toList.length, scanGroups s.pattern.toList⟩

/-- The groups of a tree that was read are those of its text, and the first pass gives them the same
numbers and names. The leaves of the tree fit the setting. -/
theorem Source.outlined_of_parse {s : Source} {p : Pattern} (h : s.parse = .ok p) :
    p.body.brackets = brackets [] 1 (parens false s.pattern.toList) ∧
      p.groupCount = s.setting.groups.count + 1 ∧ p.groupNames = s.setting.groups.names ∧
      (p.groupNames.map (·.1)).Nodup ∧ ∀ leaf ∈ p.body.leaves, leaf.Fits s.setting := by
  unfold Source.parse at h
  dsimp only at h
  split at h
  · simp at h
  · rename_i body cursor hrun
    obtain rfl := Except.ok.inj h
    obtain ⟨choice, d, hchoice, hrest⟩ := Reader.bind_eq_ok.mp hrun
    obtain ⟨row, hpasses, hrow, hleaves⟩ := Reader.outlines_readChoice
      (Reader.outlines_readGroup nestingLimit) _ _ _ _ rfl hchoice
    obtain ⟨_, d', hget, hrest⟩ := Reader.bind_eq_ok.mp hrest
    cases hget
    split at hrest
    · rename_i hempty
      obtain ⟨rfl, rfl⟩ := Reader.pure_eq_ok.mp hrest
      have hend : parens false cursor.rest = [] := by
        rw [List.isEmpty_iff.mp hempty, parens]
      have hbrackets := hpasses.row []
      rw [hend, brackets, List.append_nil] at hbrackets
      have hscan : s.setting.groups = ⟨cursor.nextGroup - 1, cursor.named⟩ := by
        rw [Source.setting, scanGroups, GroupScan.run_eq]
        have hscan := hpasses.scan (Nat.le_refl 1)
        rwa [Cursor.scan, Cursor.scan, hend] at hscan
      refine ⟨hrow.trans hbrackets.symm, rfl, ?_, hpasses.distinct List.nodup_nil, hleaves⟩
      rw [hscan]
    · obtain ⟨_, _, -, hthrow⟩ := Reader.bind_eq_ok.mp hrest
      cases hthrow

end UnitRegex
