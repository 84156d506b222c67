import UnitRegex.Proofs.Alphabet.CaseClosure
import UnitRegex.Proofs.Pattern.Outline
import UnitRegex.Proofs.Pattern.Parsed

/-!
Readers that skim a part of a text without parentheses: escapes, classes, names, literals and
quantifiers. They stop in front of the same parentheses as the first pass does behind what they
read, whatever they make of it. Their leaves fit the setting: sets are closed under case equivalence
where case is ignored, and back-references are to groups that exist.
-/

namespace UnitRegex

/-- What a leaf has to be under some flags and with some groups. -/
def Leaf.Fits (s : Setting) : Leaf → Prop
  | .unit set => s.flags.ignoreCase = true → set.Folded s.flags.unicode
  | .anchor _ => True
  | .backReference n => s.groups.Numbered → 1 ≤ n ∧ n ≤ s.groups.count

namespace Reader

variable {α β : Type} {s : Setting} {inClass : Bool} {chars : List Char} {ahead : List Paren}
  {P : α → Prop} {Q : β → Prop}

theorem accept_eq_ok {d : Char} {found : Bool} {c c' : Cursor}
    (h : Reader.accept d s c = .ok (found, c')) :
    (found = true ∧ ∃ rest, c.rest = d :: rest ∧ c' = { c with rest := rest }) ∨
      (found = false ∧ (∀ rest, c.rest ≠ d :: rest) ∧ c' = c) := by
  obtain ⟨cursor, c₁, hget, haccept⟩ := bind_eq_ok.mp h
  cases hget
  cases hrest : c.rest with
  | nil =>
    rw [hrest] at haccept
    cases haccept
    exact .inr ⟨rfl, by simp, rfl⟩
  | cons e rest =>
    rw [hrest] at haccept
    dsimp only at haccept
    by_cases heq : d = e
    · rw [if_pos heq] at haccept
      cases haccept
      exact .inl ⟨rfl, rest, by rw [heq], rfl⟩
    · rw [if_neg heq] at haccept
      cases haccept
      exact .inr ⟨rfl, by simp [Ne.symm heq], rfl⟩

theorem eq_of_discard_accept {d : Char} {rest : List Char} {u : Unit} {c c' : Cursor}
    (hc : c.rest = d :: rest) (h : (discard (Reader.accept d) : Reader Unit) s c = .ok (u, c')) :
    c' = { c with rest := rest } := by
  have h : (Reader.accept d >>= fun _ => Pure.pure ()) s c = .ok (u, c') := h
  obtain ⟨found, e, haccept, hpure⟩ := bind_eq_ok.mp h
  obtain ⟨-, rfl⟩ := pure_eq_ok.mp hpure
  rcases accept_eq_ok haccept with ⟨-, rest', hrest, rfl⟩ | ⟨-, hnot, -⟩
  · obtain ⟨-, rfl⟩ := List.cons.inj (hc.symm.trans hrest)
    rfl
  · exact absurd hc (hnot rest)

/-- Started in front of some characters, a reader stops with given parentheses ahead, it makes no
groups, and what it gives has a property. -/
def Skims (s : Setting) (inClass : Bool) (m : Reader α) (chars : List Char) (ahead : List Paren)
    (P : α → Prop) : Prop :=
  ∀ c a c', c.rest = chars → m s c = .ok (a, c') →
    parens inClass c'.rest = ahead ∧ c'.nextGroup = c.nextGroup ∧ c'.named = c.named ∧ P a

namespace Skims

theorem pure {a : α} (h : parens inClass chars = ahead) (ha : P a) :
    Skims s inClass (Pure.pure a) chars ahead P := by
  intro c b c' hc hrun
  obtain ⟨rfl, rfl⟩ := pure_eq_ok.mp hrun
  exact ⟨hc ▸ h, rfl, rfl, ha⟩

theorem bind {m : Reader α} {f : α → Reader β} {inside : Bool} {between : List Paren}
    (hm : Skims s inside m chars between P)
    (hf : ∀ a rest, P a → parens inside rest = between → Skims s inClass (f a) rest ahead Q) :
    Skims s inClass (m >>= f) chars ahead Q := by
  intro c b c' hc hrun
  obtain ⟨a, d, hma, hfa⟩ := bind_eq_ok.mp hrun
  obtain ⟨hd, hgroup, hnamed, ha⟩ := hm _ _ _ hc hma
  obtain ⟨hc', hgroup', hnamed', hb⟩ := hf a d.rest ha hd _ _ _ rfl hfa
  exact ⟨hc', hgroup'.trans hgroup, hnamed'.trans hnamed, hb⟩

theorem read {f : Setting → Reader β} (h : Skims s inClass (f s) chars ahead Q) :
    Skims s inClass (MonadReader.read >>= f) chars ahead Q := by
  intro c b c' hc hrun
  obtain ⟨a, d, hread, hfa⟩ := bind_eq_ok.mp hrun
  cases hread
  exact h _ _ _ hc hfa

theorem get {f : Cursor → Reader β}
    (h : ∀ cursor : Cursor, cursor.rest = chars → Skims s inClass (f cursor) chars ahead Q) :
    Skims s inClass (MonadState.get >>= f) chars ahead Q := by
  intro c b c' hc hrun
  obtain ⟨a, d, hget, hfa⟩ := bind_eq_ok.mp hrun
  cases hget
  exact h c hc _ _ _ hc hfa

theorem position {f : Nat → Reader β} (h : ∀ n, Skims s inClass (f n) chars ahead Q) :
    Skims s inClass (Reader.position >>= f) chars ahead Q := by
  intro c b c' hc hrun
  obtain ⟨n, d, hposition, hfn⟩ := bind_eq_ok.mp hrun
  cases hposition
  exact h _ _ _ _ hc hfn

theorem moveTo {f : Unit → Reader β} {rest : List Char}
    (h : Skims s inClass (f ()) rest ahead Q) :
    Skims s inClass (Reader.moveTo rest >>= f) chars ahead Q := by
  intro c b c' hc hrun
  obtain ⟨_, d, hmove, hfa⟩ := bind_eq_ok.mp hrun
  cases hmove
  exact h { c with rest := rest } b c' rfl hfa

theorem widenContext (units : Nat) :
    Skims s inClass (Reader.widenContext units) chars (parens inClass chars) fun _ => True := by
  intro c a c' hc hrun
  cases hrun
  exact ⟨congrArg (parens inClass) hc, rfl, rfl, trivial⟩

/-- A plain character may be there or not. -/
theorem accept {d : Char} (hd : Plain d) :
    Skims s inClass (Reader.accept d) chars (parens inClass chars) fun _ => True := by
  intro c found c' hc hrun
  rcases accept_eq_ok hrun with ⟨-, rest, hrest, rfl⟩ | ⟨-, -, rfl⟩
  · exact ⟨by rw [← hc, hrest, parens_plain hd], rfl, rfl, trivial⟩
  · exact ⟨by rw [hc], rfl, rfl, trivial⟩

/-- A character that is there is consumed. -/
theorem discardAccept {d : Char} {f : Unit → Reader β} {rest : List Char}
    (h : Skims s inClass (f ()) rest ahead Q) :
    Skims s inClass (discard (Reader.accept d) >>= f) (d :: rest) ahead Q := by
  intro c b c' hc hrun
  obtain ⟨_, e, hdiscard, hfa⟩ := bind_eq_ok.mp hrun
  obtain rfl := eq_of_discard_accept hc hdiscard
  exact h { c with rest := rest } b c' rfl hfa

theorem throw {e : Fault × Nat} :
    Skims s inClass (MonadExcept.throw e : Reader α) chars ahead P := by
  intro c a c' _ hrun
  cases hrun

theorem fail {fault : Fault} : Skims s inClass (Reader.fail fault : Reader α) chars ahead P :=
  position fun _ => throw

theorem imp {P' : α → Prop} {m : Reader α} (h : Skims s inClass m chars ahead P)
    (himp : ∀ a, P a → P' a) : Skims s inClass m chars ahead P' := by
  intro c a c' hc hrun
  obtain ⟨hparens, hgroup, hnamed, ha⟩ := h _ _ _ hc hrun
  exact ⟨hparens, hgroup, hnamed, himp a ha⟩

end Skims

end Reader

open Reader

/-! ### Escapes -/

variable {s : Setting} {inClass : Bool} {chars rest : List Char}

theorem skims_readUnicodeEscape (chars : List Char) :
    Skims s inClass readUnicodeEscape chars (parens inClass chars) fun _ => True := by
  apply Skims.read
  apply Skims.get
  intro cursor hcursor
  rw [hcursor]
  dsimp only
  split
  · rename_i more _
    rw [parens_plain (c := '{') (by decide), ← parens_takeDigits 16 more]
    apply Skims.moveTo
    split
    · exact .fail
    · apply (Skims.accept (by decide)).bind
      intro closed rest _ hrest
      split
      · exact .fail
      · split
        · exact .fail
        · exact .pure hrest trivial
  · split
    · exact .pure rfl trivial
    · rename_i lead rest hlead
      rw [← parens_readHex? hlead]
      apply Skims.moveTo
      split
      · rename_i more _ _
        rw [parens_escape]
        split
        · rename_i trail rest' htrail
          rw [← parens_readHex? htrail]
          split
          · exact .moveTo (.pure rfl trivial)
          · exact .pure (by rw [parens_escape, parens_readHex? htrail]) trivial
        · exact .pure (by rw [parens_escape]) trivial
      · exact .pure rfl trivial

/-- The character behind the backslash is skipped by the first pass. -/
theorem skims_readCharacterEscape (inClass : Bool) (chars : List Char) :
    Skims s inClass (readCharacterEscape inClass) chars (parens inClass ('\\' :: chars))
      fun _ => True := by
  apply Skims.read
  apply Skims.get
  intro cursor hcursor
  rw [hcursor]
  split
  · exact .fail
  · rename_i c rest
    rw [parens_escape]
    apply Skims.moveTo
    have hone (atom : Atom) :
        Skims s inClass (pure atom) rest (parens inClass rest) fun _ => True :=
      .pure rfl trivial
    split <;> try exact hone _
    · have hagain : Skims s inClass (do moveTo ('c' :: rest); return .unit 0x5C) rest
          (parens inClass rest) fun _ : Atom => True :=
        .moveTo (.pure (parens_plain (by decide)) trivial)
      split
      · rename_i l after
        split
        · rename_i hletter
          have hplain : Plain l :=
            plain_of (fun l => ('a' ≤ l ∧ l ≤ 'z') ∨ ('A' ≤ l ∧ l ≤ 'Z')) hletter (by decide)
          rw [parens_plain hplain]
          exact .moveTo (.pure rfl trivial)
        · split
          · exact .fail
          · exact hagain
      · split
        · exact .fail
        · exact hagain
    · split
      · rename_i n after hdigits
        rw [← parens_readHex? hdigits]
        exact .moveTo (.pure rfl trivial)
      · split
        · exact .fail
        · exact hone _
    · apply (skims_readUnicodeEscape rest).bind
      intro n rest' _ hrest'
      split
      · exact .pure hrest' trivial
      · split
        · exact .fail
        · exact .pure hrest' trivial
    · split
      · exact hone _
      · split
        · exact hone _
        · split
          · exact hone _
          · split
            · rename_i hzero
              rw [Bool.and_eq_true, beq_iff_eq] at hzero
              rw [hzero.1]
              apply Skims.moveTo
              apply Skims.pure _ trivial
              exact (parens_readOctal 0 3 ('0' :: rest)).trans (parens_plain (by decide))
            · split
              · split
                · exact hone _
                · exact .fail
              · exact hone _

/-! ### Terms -/

/-- A term with given brackets of groups, whose leaves fit. -/
def Term.Outlined (s : Setting) (row : List Bracket) (t : Term) : Prop :=
  t.brackets = row ∧ ∀ leaf ∈ t.leaves, leaf.Fits s

def Choice.Outlined (s : Setting) (row : List Bracket) (c : Choice) : Prop :=
  c.brackets = row ∧ ∀ leaf ∈ c.leaves, leaf.Fits s

theorem Term.outlined_of_leaf {t : Term} {leaf : Leaf} (hbrackets : t.brackets = [])
    (hleaves : t.leaves = [leaf]) (h : leaf.Fits s) : t.Outlined s [] := by
  constructor
  · exact hbrackets
  · intro other hother
    rw [hleaves] at hother
    obtain rfl := List.mem_singleton.mp hother
    exact h

theorem Flags.outlined_unitTerm (set : CharSet) : (s.flags.unitTerm set).Outlined s [] := by
  apply Term.outlined_of_leaf rfl rfl
  intro hcase
  rw [if_pos hcase]
  exact set.folded_caseClosure

theorem Branch.outlined_ofList {l : List Term} (h : ∀ t ∈ l, t.Outlined s []) :
    (Branch.ofList l).brackets = [] ∧ ∀ leaf ∈ (Branch.ofList l).leaves, leaf.Fits s := by
  induction l with
  | nil =>
    refine ⟨rfl, ?_⟩
    intro leaf hleaf
    cases hleaf
  | cons t rest ih =>
    obtain ⟨hbrackets, hleaves⟩ := ih fun u hu => h u (List.mem_cons_of_mem _ hu)
    obtain ⟨htbrackets, htleaves⟩ := h t List.mem_cons_self
    refine ⟨by rw [Branch.ofList, Branch.brackets, htbrackets, hbrackets, List.append_nil], ?_⟩
    intro leaf hleaf
    rcases List.mem_append.mp hleaf with hleaf | hleaf
    · exact htleaves leaf hleaf
    · exact hleaves leaf hleaf

theorem Flags.outlined_literalTerm (n : Nat) : (s.flags.literalTerm n).Outlined s [] := by
  unfold literalTerm
  split
  · exact outlined_unitTerm _
  · apply Branch.outlined_ofList
    intro t ht
    obtain ⟨c, -, rfl⟩ := List.mem_map.mp ht
    exact outlined_unitTerm _

theorem outlined_backReference {n : Nat} (h : s.groups.Numbered → 1 ≤ n ∧ n ≤ s.groups.count) :
    (Term.backReference n).Outlined s [] :=
  Term.outlined_of_leaf rfl rfl h

theorem outlined_unit {set : CharSet}
    (h : s.flags.ignoreCase = true → set.Folded s.flags.unicode) : (Term.unit set).Outlined s [] :=
  Term.outlined_of_leaf rfl rfl h

theorem Term.Outlined.repeated {row : List Bracket} {t : Term} (h : t.Outlined s row)
    (q : Quantifier) : (t.repeated q).Outlined s row := by
  unfold Term.repeated
  split
  · rename_i capture body
    cases capture <;> exact h
  · obtain ⟨hrow, hleaves⟩ := h
    refine ⟨?_, ?_⟩
    · simpa [Term.brackets, Choice.brackets, Branch.brackets] using hrow
    · simpa [Term.leaves, Choice.leaves, Branch.leaves] using hleaves

theorem plain_of_digit {c : Char} (hc : '1' ≤ c ∧ c ≤ '9') : Plain c :=
  plain_of (fun c => '1' ≤ c ∧ c ≤ '9') hc (by decide)

theorem le_foldl_digits (digits : List Nat) (value : Nat) :
    value ≤ digits.foldl (fun value d => value * 10 + d) value := by
  induction digits generalizing value with
  | nil => exact Nat.le_refl _
  | cons d digits ih => exact Nat.le_trans (by omega) (ih (value * 10 + d))

/-- The first digit is above zero, so a back-reference is never to the whole match. -/
theorem one_le_number {c : Char} (hc : '1' ≤ c ∧ c ≤ '9') (rest : List Char) :
    1 ≤ (takeDigits 10 (c :: rest)).1.foldl (fun value d => value * 10 + d) 0 := by
  have hlow : 49 ≤ c.toNat := hc.1
  have hhigh : c.toNat ≤ 57 := hc.2
  have hzero : '0' ≤ c := by
    show 48 ≤ c.toNat
    omega
  have hdigit : digitValue? 10 c = some (c.toNat - 48) := by
    have hlt : c.toNat - 48 < 10 := by omega
    simp [digitValue?, hzero, hc.2, hlt]
  rw [takeDigits, hdigit]
  exact Nat.le_trans (by omega) (le_foldl_digits _ (0 * 10 + (c.toNat - 48)))

theorem skims_readDecimalEscape {c : Char} (hc : '1' ≤ c ∧ c ≤ '9') (rest : List Char) :
    Skims s inClass (readDecimalEscape (c :: rest)) (c :: rest) (parens inClass (c :: rest))
      (Term.Outlined s []) := by
  apply Skims.read
  dsimp only
  split
  · rename_i hcount
    rw [← parens_takeDigits 10 (c :: rest)]
    apply Skims.moveTo
    apply Skims.pure rfl
    apply outlined_backReference
    intro _
    exact ⟨one_le_number hc rest, hcount⟩
  · split
    · exact .moveTo .fail
    · split
      · exact .moveTo (.pure (parens_plain (plain_of_digit hc)).symm (Flags.outlined_literalTerm _))
      · rw [← parens_readOctal 0 3 (c :: rest)]
        exact .moveTo (.pure rfl (Flags.outlined_literalTerm _))

theorem skims_readGroupName (chars : List Char) :
    Skims s inClass readGroupName chars (parens inClass chars)
      fun name => name = String.ofList (chars.takeWhile (· != '>')) := by
  apply Skims.get
  intro cursor hcursor
  rw [hcursor]
  split
  · rename_i name rest htake
    obtain ⟨hrest, hname⟩ := takeName_eq_ok htake
    exact .moveTo (.pure hrest hname)
  · exact .moveTo .fail

theorem skims_readNamedReference (start chars : List Char) :
    Skims s inClass (readNamedReference chars) start (parens inClass chars) (Term.Outlined s []) := by
  apply Skims.moveTo
  apply (Skims.accept (by decide)).bind
  intro opened rest _ hrest
  rw [← hrest]
  split
  · exact .fail
  · apply (skims_readGroupName rest).bind
    intro name rest' _ hrest'
    apply Skims.read
    split
    · rename_i n hfind
      apply Skims.pure hrest'
      apply outlined_backReference
      intro hnumbered
      exact hnumbered _ (List.mem_of_find?_eq_some hfind)
    · exact .fail

theorem skims_readEscape (chars : List Char) :
    Skims s false readEscape chars (parens false ('\\' :: chars)) (Term.Outlined s []) := by
  apply Skims.read
  apply Skims.get
  intro cursor hcursor
  rw [hcursor]
  split
  · exact .fail
  · rename_i c rest
    split
    · rename_i hdigit
      rw [parens_escape, ← parens_plain (plain_of_digit hdigit)]
      exact skims_readDecimalEscape hdigit rest
    · split
      · rw [parens_escape]
        exact skims_readNamedReference _ _
      · apply (skims_readCharacterEscape false (c :: rest)).bind
        intro atom rest' _ hrest'
        split
        · exact .pure hrest' (Flags.outlined_unitTerm _)
        · exact .pure hrest' (Flags.outlined_unitTerm _)
        · exact .pure hrest' (Flags.outlined_literalTerm _)

/-! ### Classes -/

theorem skims_readClassEscape (chars : List Char) :
    Skims s true readClassEscape chars (parens true ('\\' :: chars)) fun _ => True := by
  apply Skims.read
  apply Skims.get
  intro cursor hcursor
  rw [hcursor]
  dsimp only
  split
  · rename_i d hdigit
    obtain ⟨hhead, hrange⟩ := Option.filter_eq_some_iff.mp hdigit
    obtain ⟨rest, rfl⟩ := List.head?_eq_some_iff.mp hhead
    have hplain : Plain d := plain_of_digit (of_decide_eq_true hrange)
    rw [parens_escape]
    split
    · exact .fail
    · split
      · exact .moveTo (.pure rfl trivial)
      · rw [← parens_plain hplain, ← parens_readOctal 0 3 (d :: rest)]
        exact .moveTo (.pure rfl trivial)
  · split
    · exact .fail
    · apply (skims_readCharacterEscape true chars).bind
      intro atom rest _ hrest
      split
      · exact .fail
      · exact .pure hrest trivial

theorem skims_readClassAtom (chars : List Char) (hchars : ∀ rest, chars ≠ ']' :: rest) :
    Skims s true readClassAtom chars (parens true chars) fun _ => True := by
  apply Skims.get
  intro cursor hcursor
  rw [hcursor]
  split
  · exact .fail
  · rename_i c rest
    split
    · rename_i hslash
      rw [hslash]
      exact .moveTo (skims_readClassEscape rest)
    · rename_i hslash
      split
      · exact .fail
      · have hclose : c ≠ ']' := fun hc => hchars rest (by rw [hc])
        rw [parens_inClass hslash hclose]
        exact .moveTo (.pure rfl trivial)

/-- What stands behind the dash of a range does not end the class. -/
theorem exists_of_startsRange (h : ¬ (!startsRange chars) = true) :
    ∃ more, chars = '-' :: more ∧ ∀ rest, more ≠ ']' :: rest := by
  unfold startsRange at h
  split at h
  · cases h rfl
  · rename_i c more hnot
    refine ⟨c :: more, rfl, ?_⟩
    intro rest heq
    obtain ⟨rfl, rfl⟩ := List.cons.inj heq
    exact hnot rfl
  · cases h rfl

/-- The items end behind the closing bracket of the class. -/
theorem skims_readClassItems (opened fuel : Nat) (ranges : List Interval) (chars : List Char) :
    Skims s false (readClassItems opened fuel ranges) chars (parens true chars)
      fun _ => True := by
  induction fuel generalizing ranges chars with
  | zero => exact .throw
  | succ fuel ih =>
    apply Skims.get
    intro cursor hcursor
    rw [hcursor]
    split
    · exact .throw
    · rename_i rest
      rw [parens]
      exact .moveTo (.pure rfl trivial)
    · rename_i hclose
      apply (skims_readClassAtom chars fun rest => hclose rest).bind
      intro low rest _ hrest
      rw [← hrest]
      apply Skims.get
      intro cursor' hcursor'
      rw [hcursor']
      split
      · exact ih _ _
      · rename_i hrange
        -- A range is read only if something else than the end of the class stands behind the dash.
        obtain ⟨more, rfl, hmore⟩ := exists_of_startsRange hrange
        rw [parens_plain (c := '-') (by decide)]
        apply Skims.discardAccept
        apply (skims_readClassAtom more hmore).bind
        intro high rest' _ hrest'
        rw [← hrest']
        split
        · split
          · exact .fail
          · exact ih _ _
        · apply Skims.read
          split
          · exact .fail
          · exact ih _ _

theorem skims_readClass (start rest : List Char) :
    Skims s false (readClass rest) start (parens false ('[' :: rest)) (Term.Outlined s []) := by
  rw [parens]
  apply Skims.read
  apply Skims.position
  intro opened
  apply Skims.moveTo
  apply (Skims.accept (by decide)).bind
  intro negated rest' _ hrest'
  rw [← hrest']
  apply Skims.get
  intro cursor _
  apply (skims_readClassItems opened (cursor.rest.length + 1) [] rest').bind
  intro ranges after _ hafter
  apply Skims.pure hafter
  apply outlined_unit
  intro hcase
  rw [if_pos hcase]
  split
  · exact (CharSet.folded_caseClosure _).complement
  · exact CharSet.folded_caseClosure _

/-! ### Quantifiers -/

theorem skims_readBounds (chars : List Char) :
    Skims s inClass readBounds chars (parens inClass chars) fun _ => True := by
  apply Skims.get
  intro cursor hcursor
  rw [hcursor]
  have hstep {c : Char} (hc : Plain c) (rest : List Char) (bounds : Option (Nat × Option Nat)) :
      Skims s inClass (do moveTo rest; return bounds) (c :: rest) (parens inClass (c :: rest))
        fun _ => True :=
    .moveTo (.pure (parens_plain hc).symm trivial)
  split
  · exact hstep (by decide) _ _
  · exact hstep (by decide) _ _
  · exact hstep (by decide) _ _
  · split
    · rename_i low high after hbraces
      split
      · exact .fail
      · rw [parens_plain (by decide), ← parens_readBraces? hbraces]
        exact .moveTo (.pure rfl trivial)
    · apply Skims.read
      split
      · exact .fail
      · exact .pure rfl trivial
  · exact .pure rfl trivial

theorem skims_readQuantifier (chars : List Char) :
    Skims s inClass readQuantifier chars (parens inClass chars) fun _ => True := by
  apply (skims_readBounds chars).bind
  intro bounds rest _ hrest
  rw [← hrest]
  split
  · exact .pure rfl trivial
  · apply (Skims.accept (by decide)).bind
    intro lazy rest' _ hrest'
    exact .pure hrest' trivial

end UnitRegex
