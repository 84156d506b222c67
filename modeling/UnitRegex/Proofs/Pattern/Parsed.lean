import UnitRegex.Pattern.Reader
import UnitRegex.Proofs.Pattern.WellFormed

/-!
Patterns that have been read are well-formed. Most readers only consume characters; those that make
groups or look at more context say so in the cursor, which never takes anything back.
-/

namespace UnitRegex

namespace Reader

variable {α β : Type}

theorem bind_eq_ok {m : Reader α} {f : α → Reader β} {s : Setting} {c c' : Cursor} {b : β} :
    (m >>= f) s c = .ok (b, c') ↔ ∃ a d, m s c = .ok (a, d) ∧ f a s d = .ok (b, c') := by
  show (m s c >>= fun r => f r.1 s r.2) = _ ↔ _
  cases m s c with
  | error e => simp [bind, Except.bind]
  | ok r =>
    obtain ⟨a, d⟩ := r
    simp [bind, Except.bind]

theorem pure_eq_ok {a b : α} {s : Setting} {c c' : Cursor} :
    (pure a : Reader α) s c = .ok (b, c') ↔ b = a ∧ c' = c := by
  show Except.ok (a, c) = _ ↔ _
  simp [eq_comm]

/-- A reader that makes no groups and looks at no context, with a property of what it gives. -/
def Meets (m : Reader α) (P : α → Prop) : Prop :=
  ∀ s c a c', m s c = .ok (a, c') → c'.nextGroup = c.nextGroup ∧ c'.context = c.context ∧ P a

namespace Meets

variable {P : α → Prop} {Q : β → Prop}

theorem pure {a : α} (h : P a) : Meets (Pure.pure a) P := by
  intro s c b c' hrun
  obtain ⟨rfl, rfl⟩ := pure_eq_ok.mp hrun
  exact ⟨rfl, rfl, h⟩

theorem bind {m : Reader α} {f : α → Reader β} (hm : m.Meets P)
    (hf : ∀ a, P a → (f a).Meets Q) : (m >>= f).Meets Q := by
  intro s c b c' hrun
  obtain ⟨a, d, hma, hfa⟩ := bind_eq_ok.mp hrun
  obtain ⟨hgroup, hcontext, ha⟩ := hm _ _ _ _ hma
  obtain ⟨hgroup', hcontext', hb⟩ := hf a ha _ _ _ _ hfa
  exact ⟨hgroup'.trans hgroup, hcontext'.trans hcontext, hb⟩

/-- What the first of two readers gives may be anything. -/
theorem andThen {m : Reader α} {f : α → Reader β} (hm : m.Meets fun _ => True)
    (hf : ∀ a, (f a).Meets Q) : (m >>= f).Meets Q :=
  hm.bind fun a _ => hf a

theorem map {γ : Type} {m : Reader α} {f : α → γ} (hm : m.Meets fun _ => True) :
    Meets (f <$> m) fun _ => True :=
  hm.andThen fun _ => .pure trivial

theorem read : Meets (MonadReader.read : Reader Setting) fun _ => True := by
  intro s c a c' hrun
  cases hrun
  exact ⟨rfl, rfl, trivial⟩

theorem get : Meets (MonadState.get : Reader Cursor) fun _ => True := by
  intro s c a c' hrun
  cases hrun
  exact ⟨rfl, rfl, trivial⟩

theorem position : Meets Reader.position fun _ => True :=
  read.andThen fun _ => get.andThen fun _ => .pure trivial

theorem throw {e : Fault × Nat} : Meets (MonadExcept.throw e : Reader α) P := by
  intro s c a c' hrun
  cases hrun

theorem fail {fault : Fault} : Meets (Reader.fail fault : Reader α) P :=
  position.andThen fun _ => throw

theorem moveTo {rest : List Char} : Meets (Reader.moveTo rest) fun _ => True := by
  intro s c a c' hrun
  cases hrun
  exact ⟨rfl, rfl, trivial⟩

theorem accept (c : Char) : Meets (Reader.accept c) fun _ => True := by
  refine get.andThen fun cursor => ?_
  split
  · split
    · exact moveTo.andThen fun _ => .pure trivial
    · exact .pure trivial
  · exact .pure trivial

end Meets

end Reader

open Reader

/-- A term without groups of its own that is well-formed whatever stands around it. -/
def Term.Bare (t : Term) : Prop := t.groupSpan = none ∧ ∀ flags context, t.WellFormed flags context

theorem Flags.bare_unitTerm (f : Flags) (set : CharSet) : (f.unitTerm set).Bare :=
  ⟨rfl, fun _ _ => trivial⟩

theorem Branch.bare_ofList {l : List Term} (h : ∀ t ∈ l, t.Bare) :
    (Branch.ofList l).groupSpan = none ∧
      ∀ flags context, (Branch.ofList l).WellFormed flags context := by
  induction l with
  | nil => exact ⟨rfl, fun _ _ => trivial⟩
  | cons t rest ih =>
    obtain ⟨hspan, hwf⟩ := ih fun u hu => h u (by simp [hu])
    obtain ⟨htspan, htwf⟩ := h t (by simp)
    refine ⟨?_, fun flags context => ⟨htwf flags context, hwf flags context⟩⟩
    simp [Branch.ofList, Branch.groupSpan, htspan, hspan, spanHull]

theorem Flags.bare_literalTerm (f : Flags) (n : Nat) : (f.literalTerm n).Bare := by
  unfold literalTerm
  split
  · exact f.bare_unitTerm _
  · obtain ⟨hspan, hwf⟩ := Branch.bare_ofList
      (l := (encodeCodePoint n).map fun c => f.unitTerm (CharSet.single c)) (by
        intro t ht
        obtain ⟨c, -, rfl⟩ := List.mem_map.mp ht
        exact f.bare_unitTerm _)
    exact ⟨hspan, fun flags context => ⟨hwf flags context, by simp, by simp⟩⟩

theorem bare_unit (set : CharSet) : (Term.unit set).Bare := ⟨rfl, fun _ _ => trivial⟩

theorem bare_backReference (n : Nat) : (Term.backReference n).Bare := ⟨rfl, fun _ _ => trivial⟩

theorem meets_readUnicodeEscape : readUnicodeEscape.Meets fun _ => True := by
  unfold readUnicodeEscape
  refine Meets.read.andThen fun s => Meets.get.andThen fun c => ?_
  split
  · refine Meets.moveTo.andThen fun _ => ?_
    split
    · exact .fail
    · refine (Meets.accept _).andThen fun closed => ?_
      split
      · exact .fail
      · dsimp only
        split
        · exact .fail
        · exact .pure trivial
  · split
    · exact .pure trivial
    · refine Meets.moveTo.andThen fun _ => ?_
      split
      · split
        · split
          · exact Meets.moveTo.andThen fun _ => .pure trivial
          · exact .pure trivial
        · exact .pure trivial
      · exact .pure trivial

theorem meets_readCharacterEscape (inClass : Bool) :
    (readCharacterEscape inClass).Meets fun _ => True := by
  unfold readCharacterEscape
  refine Meets.read.andThen fun s => Meets.get.andThen fun c => ?_
  split
  · exact .fail
  · refine Meets.moveTo.andThen fun _ => ?_
    split <;> try exact .pure trivial
    · split
      · split
        · exact Meets.moveTo.andThen fun _ => .pure trivial
        · split
          · exact .fail
          · exact Meets.moveTo.andThen fun _ => .pure trivial
      · split
        · exact .fail
        · exact Meets.moveTo.andThen fun _ => .pure trivial
    · split
      · exact Meets.moveTo.andThen fun _ => .pure trivial
      · split
        · exact .fail
        · exact .pure trivial
    · refine meets_readUnicodeEscape.andThen fun n => ?_
      split
      · exact .pure trivial
      · split
        · exact .fail
        · exact .pure trivial
    · split
      · exact .pure trivial
      · split
        · exact .pure trivial
        · split
          · exact .pure trivial
          · split
            · exact Meets.moveTo.andThen fun _ => .pure trivial
            · split
              · split
                · exact .pure trivial
                · exact .fail
              · exact .pure trivial

theorem meets_readGroupName : readGroupName.Meets fun _ => True := by
  unfold readGroupName
  refine Meets.get.andThen fun c => ?_
  split
  · exact Meets.moveTo.andThen fun _ => .pure trivial
  · exact Meets.moveTo.andThen fun _ => .fail

theorem meets_readDecimalEscape (chars : List Char) :
    (readDecimalEscape chars).Meets Term.Bare := by
  unfold readDecimalEscape
  refine Meets.read.andThen fun s => ?_
  dsimp only
  split
  · exact Meets.moveTo.andThen fun _ => .pure (bare_backReference _)
  · split
    · exact Meets.moveTo.andThen fun _ => .fail
    · split
      · split
        · exact Meets.moveTo.andThen fun _ => .pure (s.flags.bare_literalTerm _)
        · exact Meets.moveTo.andThen fun _ => .pure (s.flags.bare_literalTerm _)
      · exact .fail

theorem meets_readNamedReference (chars : List Char) :
    (readNamedReference chars).Meets Term.Bare := by
  unfold readNamedReference
  refine Meets.moveTo.andThen fun _ => (Meets.accept _).andThen fun opened => ?_
  split
  · exact .fail
  · refine meets_readGroupName.andThen fun name => Meets.read.andThen fun s => ?_
    split
    · exact .pure (bare_backReference _)
    · exact .fail

theorem meets_readEscape : readEscape.Meets Term.Bare := by
  unfold readEscape
  refine Meets.read.andThen fun s => Meets.get.andThen fun c => ?_
  split
  · exact .fail
  · split
    · exact meets_readDecimalEscape _
    · split
      · exact meets_readNamedReference _
      · refine (meets_readCharacterEscape false).andThen fun atom => ?_
        split
        · exact .pure (s.flags.bare_unitTerm _)
        · exact .pure (s.flags.bare_unitTerm _)
        · exact .pure (s.flags.bare_literalTerm _)

theorem meets_readClassEscape : readClassEscape.Meets fun _ => True := by
  unfold readClassEscape
  refine Meets.read.andThen fun s => Meets.get.andThen fun c => ?_
  dsimp only
  split
  · split
    · exact .fail
    · split
      · exact Meets.moveTo.andThen fun _ => .pure trivial
      · exact Meets.moveTo.andThen fun _ => .pure trivial
  · split
    · exact .fail
    · refine (meets_readCharacterEscape true).andThen fun atom => ?_
      split
      · exact .fail
      · exact .pure trivial

theorem meets_readClassAtom : readClassAtom.Meets fun _ => True := by
  unfold readClassAtom
  refine Meets.get.andThen fun c => ?_
  split
  · exact .fail
  · split
    · exact Meets.moveTo.andThen fun _ => meets_readClassEscape
    · split
      · exact .fail
      · exact Meets.moveTo.andThen fun _ => .pure trivial

theorem meets_readClassItems (opened fuel : Nat) (ranges : List Interval) :
    (readClassItems opened fuel ranges).Meets fun _ => True := by
  induction fuel generalizing ranges with
  | zero => exact .throw
  | succ fuel ih =>
    unfold readClassItems
    refine Meets.get.andThen fun c => ?_
    split
    · exact .throw
    · exact Meets.moveTo.andThen fun _ => .pure trivial
    · refine meets_readClassAtom.andThen fun low => Meets.get.andThen fun c' => ?_
      split
      · exact ih _
      · refine Meets.andThen ?_ fun _ => meets_readClassAtom.andThen fun high => ?_
        · exact (Meets.accept _).map
        · split
          · split
            · exact .fail
            · exact ih _
          · refine Meets.read.andThen fun s => ?_
            split
            · exact .fail
            · exact ih _

theorem meets_readClass (rest : List Char) : (readClass rest).Meets Term.Bare := by
  unfold readClass
  refine Meets.read.andThen fun s => Meets.position.andThen fun opened =>
    Meets.moveTo.andThen fun _ => (Meets.accept _).andThen fun negated =>
      Meets.get.andThen fun c => (meets_readClassItems _ _ _).andThen fun ranges => ?_
  exact .pure (bare_unit _)

theorem meets_readBounds :
    readBounds.Meets fun bounds => ∀ low high, bounds = some (low, some high) → low ≤ high := by
  unfold readBounds
  refine Meets.get.andThen fun c => ?_
  split
  · exact Meets.moveTo.andThen fun _ => .pure (by simp)
  · exact Meets.moveTo.andThen fun _ => .pure (by simp)
  · exact Meets.moveTo.andThen fun _ => .pure (by simp)
  · split
    · split
      · exact .fail
      · rename_i low high after _ hhigh
        refine Meets.moveTo.andThen fun _ => .pure ?_
        intro low' high' h
        obtain ⟨rfl, rfl⟩ := Prod.mk.inj (Option.some.inj h)
        simpa using hhigh
    · refine Meets.read.andThen fun s => ?_
      split
      · exact .fail
      · exact .pure (by simp)
  · exact .pure (by simp)

theorem meets_readQuantifier :
    readQuantifier.Meets fun repeats => ∀ q, repeats = some q → q.InOrder := by
  unfold readQuantifier
  refine meets_readBounds.bind fun bounds hbounds => ?_
  split
  · exact .pure (by simp)
  · rename_i low high
    refine (Meets.accept _).andThen fun lazy => .pure ?_
    intro q hq high' hhigh
    obtain rfl := Option.some.inj hq
    obtain rfl : high = some high' := hhigh
    exact hbounds low high' rfl

/-- All groups of a range have numbers from `lo` on. -/
def SpanFrom (lo : Nat) (span : Option (Nat × Nat)) : Prop :=
  ∀ first last, span = some (first, last) → lo ≤ first

namespace SpanFrom

variable {lo lo' : Nat} {a b : Option (Nat × Nat)}

theorem mono (h : SpanFrom lo a) (hle : lo' ≤ lo) : SpanFrom lo' a :=
  fun first last hspan => Nat.le_trans hle (h first last hspan)

theorem hull (ha : SpanFrom lo a) (hb : SpanFrom lo b) : SpanFrom lo (spanHull a b) := by
  intro first last h
  match a, b with
  | none, b => exact hb first last h
  | some a, none => exact ha first last h
  | some (lo₁, hi₁), some (lo₂, hi₂) =>
    have h₁ := ha lo₁ hi₁ rfl
    have h₂ := hb lo₂ hi₂ rfl
    obtain ⟨rfl, -⟩ := Prod.mk.inj (Option.some.inj h)
    exact Nat.le_min.mpr ⟨h₁, h₂⟩

/-- The start of the group in front of a range is outside of it. -/
theorem outside {g : Nat} (h : SpanFrom (g + 1) a) : SlotOutside (2 * g) a := by
  match a with
  | none => trivial
  | some (first, last) =>
    have hle := h first last rfl
    exact .inl (by omega)

end SpanFrom

/-- A term whose groups have numbers from `lo` on. -/
def Term.ReadFrom (flags : Flags) (lo context : Nat) (t : Term) : Prop :=
  t.WellFormed flags context ∧ SpanFrom lo t.groupSpan

def Branch.ReadFrom (flags : Flags) (lo context : Nat) (b : Branch) : Prop :=
  b.WellFormed flags context ∧ SpanFrom lo b.groupSpan

def Choice.ReadFrom (flags : Flags) (lo context : Nat) (c : Choice) : Prop :=
  c.WellFormed flags context ∧ SpanFrom lo c.groupSpan

theorem Term.Bare.readFrom {t : Term} (h : t.Bare) (flags : Flags) (lo context : Nat) :
    t.ReadFrom flags lo context := by
  refine ⟨h.2 flags context, ?_⟩
  rw [h.1]
  intro first last hspan
  simp at hspan

theorem Term.ReadFrom.mono {flags : Flags} {lo lo' context context' : Nat} {t : Term}
    (h : t.ReadFrom flags lo context) (hlo : lo' ≤ lo) (hcontext : context ≤ context') :
    t.ReadFrom flags lo' context' :=
  ⟨h.1.widen hcontext, h.2.mono hlo⟩

theorem Term.ReadFrom.repeated {flags : Flags} {lo context : Nat} {t : Term} {q : Quantifier}
    (h : t.ReadFrom flags lo context) (hq : q.InOrder) :
    (t.repeated q).ReadFrom flags lo context := by
  unfold Term.repeated
  split
  · rename_i capture body
    obtain ⟨⟨hbody, hstart, -⟩, hspan⟩ := h
    refine ⟨⟨hbody, hstart, fun r hr => Option.some.inj hr ▸ hq⟩, ?_⟩
    cases capture <;> exact hspan
  · refine ⟨⟨⟨h.1, trivial⟩, by simp, fun r hr => Option.some.inj hr ▸ hq⟩, ?_⟩
    exact h.2.hull (by intro first last hspan; simp [Branch.groupSpan] at hspan)

/-- The branch of some terms that were read, the last one first. -/
theorem Branch.readFrom_ofList_reverse {flags : Flags} {lo context : Nat} {terms : List Term}
    (h : ∀ t ∈ terms, t.ReadFrom flags lo context) :
    (Branch.ofList terms.reverse).ReadFrom flags lo context := by
  have hall : ∀ l : List Term, (∀ t ∈ l, t.ReadFrom flags lo context) →
      (Branch.ofList l).ReadFrom flags lo context := by
    intro l hl
    induction l with
    | nil => exact ⟨trivial, by intro first last hspan; simp [ofList, groupSpan] at hspan⟩
    | cons t rest ih =>
      obtain ⟨ht, htspan⟩ := hl t (by simp)
      obtain ⟨hrest, hspan⟩ := ih fun u hu => hl u (by simp [hu])
      exact ⟨⟨ht, hrest⟩, htspan.hull hspan⟩
  exact hall _ fun t ht => h t (by simpa using ht)

/-- The cursor has not taken back any group or context. -/
structure Cursor.Grown (c c' : Cursor) : Prop where
  nextGroup : c.nextGroup ≤ c'.nextGroup
  context : c.context ≤ c'.context

theorem Cursor.Grown.refl (c : Cursor) : c.Grown c := ⟨Nat.le_refl _, Nat.le_refl _⟩

theorem Cursor.Grown.trans {a b c : Cursor} (h : a.Grown b) (h' : b.Grown c) : a.Grown c :=
  ⟨Nat.le_trans h.nextGroup h'.nextGroup, Nat.le_trans h.context h'.context⟩

namespace Reader

/-- A reader gives something whose groups are numbered from the cursor on, and which fits into the
context that the cursor then has. -/
def Reads {α : Type} (m : Reader α) (P : Flags → Nat → Nat → α → Prop) : Prop :=
  ∀ s c a c', m s c = .ok (a, c') → c.Grown c' ∧ P s.flags c.nextGroup c'.context a

theorem Meets.reads {m : Reader Term} (h : m.Meets Term.Bare) : m.Reads Term.ReadFrom := by
  intro s c t c' hrun
  obtain ⟨hgroup, hcontext, ht⟩ := h _ _ _ _ hrun
  exact ⟨⟨Nat.le_of_eq hgroup.symm, Nat.le_of_eq hcontext.symm⟩, ht.readFrom _ _ _⟩

theorem Reads.after {α β : Type} {m : Reader α} {f : α → Reader β}
    {P : Flags → Nat → Nat → β → Prop} (hm : m.Meets fun _ => True) (hf : ∀ a, (f a).Reads P) :
    (m >>= f).Reads P := by
  intro s c b c' hrun
  obtain ⟨a, d, hma, hfa⟩ := bind_eq_ok.mp hrun
  obtain ⟨hgroup, hcontext, -⟩ := hm _ _ _ _ hma
  obtain ⟨hgrown, hb⟩ := hf a _ _ _ _ hfa
  rw [← hgroup]
  exact ⟨⟨hgroup ▸ hgrown.nextGroup, hcontext ▸ hgrown.context⟩, hb⟩

theorem Reads.fail {α : Type} {fault : Fault} {P : Flags → Nat → Nat → α → Prop} :
    Reads (Reader.fail fault : Reader α) P := by
  intro s c a c' hrun
  obtain ⟨_, _, h, hthrow⟩ := bind_eq_ok.mp hrun
  cases hthrow

/-- Only a multiline caret needs context. -/
theorem reads_readAnchor (kind : Anchor) (rest : List Char) :
    (readAnchor kind rest).Reads Term.ReadFrom := by
  unfold readAnchor
  refine Reads.after .moveTo fun _ => ?_
  intro s c t c' hrun
  obtain ⟨setting, d, hread, hrun⟩ := bind_eq_ok.mp hrun
  cases hread
  have hspan : SpanFrom c.nextGroup (Term.anchor kind).groupSpan := by
    intro first last hspan
    simp [Term.groupSpan] at hspan
  have hanchor : ∀ d : Cursor, c.Grown d → (kind = .caret → s.flags.multiline = true →
      1 ≤ d.context) → (if startsQuantifier rest then fail .nothingToRepeat
        else return .anchor kind : Reader Term) s d = .ok (t, c') →
      c.Grown c' ∧ t.ReadFrom s.flags c.nextGroup c'.context := by
    intro d hgrown hcontext h
    split at h
    · obtain ⟨_, _, -, hthrow⟩ := bind_eq_ok.mp h
      cases hthrow
    · obtain ⟨rfl, rfl⟩ := pure_eq_ok.mp h
      exact ⟨hgrown, hcontext, hspan⟩
  by_cases hwide : (kind = .caret && s.flags.multiline) = true
  · simp only [hwide, if_true] at hrun
    obtain ⟨_, d, hwiden, hrun⟩ := bind_eq_ok.mp hrun
    cases hwiden
    exact hanchor { c with context := max c.context 1 } ⟨Nat.le_refl _, Nat.le_max_left _ _⟩
      (fun _ _ => Nat.le_max_right _ _) hrun
  · simp only [hwide, Bool.false_eq_true, if_false] at hrun
    refine hanchor _ (.refl c) (fun hkind hmulti => ?_) hrun
    exact absurd (by simp [hkind, hmulti]) hwide

/-- What follows a term may change it as long as it stays well-formed. -/
theorem Reads.finish {m : Reader Term} {f : Term → Reader Term} (hm : m.Reads Term.ReadFrom)
    (hf : ∀ t, (f t).Meets fun u => ∀ flags lo context,
      t.ReadFrom flags lo context → u.ReadFrom flags lo context) :
    (m >>= f).Reads Term.ReadFrom := by
  intro s c u c' hrun
  obtain ⟨t, d, hmt, hft⟩ := bind_eq_ok.mp hrun
  obtain ⟨hgrown, ht⟩ := hm _ _ _ _ hmt
  obtain ⟨hgroup, hcontext, hu⟩ := hf t _ _ _ _ hft
  refine ⟨⟨hgroup ▸ hgrown.nextGroup, hcontext ▸ hgrown.context⟩, ?_⟩
  rw [hcontext]
  exact hu _ _ _ ht

theorem reads_readAtom {group : Reader Term} (hgroup : group.Reads Term.ReadFrom) :
    (readAtom group).Reads Term.ReadFrom := by
  unfold readAtom
  refine Reads.after .read fun s => Reads.after .get fun c => ?_
  split
  · exact hgroup
  · exact (meets_readClass _).reads
  · exact Reads.after .moveTo fun _ => meets_readEscape.reads
  · exact Reads.after .moveTo fun _ => (Meets.pure (bare_unit _)).reads
  · exact .fail
  · exact .fail
  · exact .fail
  · split
    · exact .fail
    · split
      · exact .fail
      · exact Reads.after .moveTo fun _ => (Meets.pure (s.flags.bare_literalTerm _)).reads
  · exact .fail

theorem reads_readTerm {group : Reader Term} (hgroup : group.Reads Term.ReadFrom) :
    (readTerm group).Reads Term.ReadFrom := by
  unfold readTerm
  refine Reads.after .get fun c => ?_
  split
  · exact reads_readAnchor _ _
  · exact reads_readAnchor _ _
  · exact reads_readAnchor _ _
  · exact reads_readAnchor _ _
  · refine (reads_readAtom hgroup).finish fun atom => ?_
    refine meets_readQuantifier.bind fun repeats hq => ?_
    split
    · exact .pure fun _ _ _ h => h
    · rename_i q
      refine Meets.read.andThen fun s => ?_
      split
      · exact .fail
      · exact .pure fun _ _ _ h => h.repeated (hq q rfl)

/-- The terms that are there already are kept. -/
theorem reads_readTerms {group : Reader Term} (hgroup : group.Reads Term.ReadFrom)
    (ahead : List Char) (terms : List Term) :
    (readTerms group ahead terms).Reads fun flags lo context b =>
      ∀ lo' ≤ lo, (∀ t ∈ terms, t.ReadFrom flags lo' context) →
        b.ReadFrom flags lo' context := by
  have hdone : ∀ l : List Term, Reads (pure (Branch.ofList l.reverse))
      fun flags lo context b => ∀ lo' ≤ lo, (∀ t ∈ l, t.ReadFrom flags lo' context) →
        b.ReadFrom flags lo' context := by
    intro l s c b c' hrun
    obtain ⟨rfl, rfl⟩ := pure_eq_ok.mp hrun
    exact ⟨.refl _, fun lo' _ hl => Branch.readFrom_ofList_reverse hl⟩
  induction ahead generalizing terms with
  | nil => exact hdone terms
  | cons _ ahead ih =>
    unfold readTerms
    refine Reads.after .get fun cursor => ?_
    split
    · exact hdone terms
    · exact hdone terms
    · exact hdone terms
    · intro s c b c' hrun
      obtain ⟨t, d, hterm, hrest⟩ := bind_eq_ok.mp hrun
      obtain ⟨hgrown, ht⟩ := reads_readTerm hgroup _ _ _ _ hterm
      obtain ⟨hgrown', hb⟩ := ih (t :: terms) _ _ _ _ hrest
      refine ⟨hgrown.trans hgrown', fun lo' hlo hterms =>
        hb lo' (Nat.le_trans hlo hgrown.nextGroup) fun u hu => ?_⟩
      rcases List.mem_cons.mp hu with rfl | hu
      · exact ht.mono hlo hgrown'.context
      · exact hterms u hu

theorem reads_readBranches {group : Reader Term} (hgroup : group.Reads Term.ReadFrom)
    (ahead : List Char) : (readBranches group ahead).Reads Choice.ReadFrom := by
  induction ahead with
  | nil =>
    intro s c b c' hrun
    obtain ⟨rfl, rfl⟩ := pure_eq_ok.mp hrun
    refine ⟨.refl _, trivial, ?_⟩
    intro first last hspan
    simp [Choice.groupSpan, Branch.groupSpan] at hspan
  | cons _ ahead ih =>
    unfold readBranches
    refine Reads.after .get fun cursor => ?_
    intro s c choice c' hrun
    obtain ⟨b, d, hbranch, hrun⟩ := bind_eq_ok.mp hrun
    obtain ⟨hgrown, hterms⟩ := reads_readTerms hgroup _ [] _ _ _ _ hbranch
    have hb := hterms c.nextGroup (Nat.le_refl _) (by simp)
    obtain ⟨bar, d', hbar, hrun⟩ := bind_eq_ok.mp hrun
    obtain ⟨hgroup', hcontext, -⟩ := Meets.accept _ _ _ _ _ hbar
    split at hrun
    · obtain ⟨rest, d'', hrest, hrun⟩ := bind_eq_ok.mp hrun
      obtain ⟨rfl, rfl⟩ := pure_eq_ok.mp hrun
      obtain ⟨hgrown', hwf, hspan⟩ := ih _ _ _ _ hrest
      rw [hgroup'] at hspan
      have hall : c.Grown c' :=
        hgrown.trans ⟨hgroup' ▸ hgrown'.nextGroup, hcontext ▸ hgrown'.context⟩
      refine ⟨hall, ⟨hb.1.widen (hcontext ▸ hgrown'.context), hwf⟩, ?_⟩
      exact hb.2.hull (hspan.mono hgrown.nextGroup)
    · obtain ⟨rfl, rfl⟩ := pure_eq_ok.mp hrun
      refine ⟨⟨hgroup' ▸ hgrown.nextGroup, hcontext ▸ hgrown.context⟩, ?_⟩
      rw [hcontext]
      exact hb

theorem reads_readChoice {group : Reader Term} (hgroup : group.Reads Term.ReadFrom) :
    (readChoice group).Reads Choice.ReadFrom :=
  Reads.after .get fun _ => reads_readBranches hgroup _

/-- A look-behind widens the context to its own length. -/
theorem reads_readLook {choice : Reader Choice} (hchoice : choice.Reads Choice.ReadFrom)
    (behind negated : Bool) : (readLook choice behind negated).Reads Term.ReadFrom := by
  intro s c t c' hrun
  obtain ⟨body, d, hbody, hrun⟩ := bind_eq_ok.mp hrun
  obtain ⟨hgrown, hwf, hspan⟩ := hchoice _ _ _ _ hbody
  cases behind with
  | false =>
    simp only [Bool.false_eq_true, if_false] at hrun
    obtain ⟨rfl, rfl⟩ := pure_eq_ok.mp hrun
    exact ⟨hgrown, ⟨hwf, by simp⟩, hspan⟩
  | true =>
    simp only [if_true] at hrun
    cases hsets : body.soleSequence? with
    | some sets =>
      simp only [hsets] at hrun
      obtain ⟨_, d', hwiden, hrun⟩ := bind_eq_ok.mp hrun
      cases hwiden
      obtain ⟨rfl, rfl⟩ := pure_eq_ok.mp hrun
      refine ⟨⟨hgrown.nextGroup, Nat.le_trans hgrown.context (Nat.le_max_left _ _)⟩,
        ⟨hwf.widen (Nat.le_max_left _ _), fun _ sets' hsets' => ?_⟩, hspan⟩
      obtain rfl := Option.some.inj (hsets.symm.trans hsets')
      exact Nat.le_max_right _ _
    | none =>
      simp only [hsets] at hrun
      obtain ⟨rfl, rfl⟩ := pure_eq_ok.mp hrun
      refine ⟨hgrown, ⟨hwf, fun _ sets' hsets' => ?_⟩, hspan⟩
      rw [hsets] at hsets'
      simp at hsets'

/-- A capture group takes the next number before its body is read. -/
theorem reads_capture {choice : Reader Choice} (hchoice : choice.Reads Choice.ReadFrom)
    (note : Nat → Reader Unit) (hnote : ∀ n, (note n).Meets fun _ => True) :
    Reads (do
      let n ← newGroup
      note n
      return .group (some n) none (← choice)) Term.ReadFrom := by
  intro s c t c' hrun
  obtain ⟨n, d, hgroup, hrun⟩ := bind_eq_ok.mp hrun
  cases hgroup
  obtain ⟨_, d', hnoted, hrun⟩ := bind_eq_ok.mp hrun
  obtain ⟨hnumber, hcontext, -⟩ := hnote _ _ _ _ _ hnoted
  obtain ⟨body, d'', hbody, hrun⟩ := bind_eq_ok.mp hrun
  obtain ⟨rfl, rfl⟩ := pure_eq_ok.mp hrun
  obtain ⟨hgrown, hwf, hspan⟩ := hchoice _ _ _ _ hbody
  simp only at hnumber hcontext
  rw [hnumber] at hspan
  have hnext := hgrown.nextGroup
  have hwide := hgrown.context
  refine ⟨⟨by omega, by omega⟩, ⟨hwf, ?_, by simp⟩, ?_⟩
  · intro g hg
    obtain rfl := Option.some.inj hg
    exact hspan.outside
  · refine SpanFrom.hull ?_ (hspan.mono (Nat.le_succ _))
    intro first last h
    obtain ⟨rfl, -⟩ := Prod.mk.inj (Option.some.inj h)
    exact Nat.le_refl _

theorem reads_readGroupBody {choice : Reader Choice} (hchoice : choice.Reads Choice.ReadFrom) :
    (readGroupBody choice).Reads Term.ReadFrom := by
  unfold readGroupBody
  refine Reads.after .get fun cursor => ?_
  split
  · refine Reads.after .moveTo fun _ => ?_
    intro s c t c' hrun
    obtain ⟨body, d, hbody, hrun⟩ := bind_eq_ok.mp hrun
    obtain ⟨rfl, rfl⟩ := pure_eq_ok.mp hrun
    obtain ⟨hgrown, hwf, hspan⟩ := hchoice _ _ _ _ hbody
    exact ⟨hgrown, ⟨hwf, by simp, by simp⟩, hspan⟩
  · exact Reads.after .moveTo fun _ => reads_readLook hchoice _ _
  · exact Reads.after .moveTo fun _ => reads_readLook hchoice _ _
  · exact Reads.after .moveTo fun _ => reads_readLook hchoice _ _
  · exact Reads.after .moveTo fun _ => reads_readLook hchoice _ _
  · refine Reads.after .moveTo fun _ => Reads.after meets_readGroupName fun name =>
      Reads.after .get fun c => ?_
    split
    · exact .fail
    · refine reads_capture hchoice _ fun n => ?_
      intro s c u c' hrun
      cases hrun
      exact ⟨rfl, rfl, trivial⟩
  · exact Reads.after .moveTo fun _ => .fail
  · exact reads_capture hchoice (fun _ => pure ()) fun _ => .pure trivial

theorem reads_readGroup (depth : Nat) : (readGroup depth).Reads Term.ReadFrom := by
  induction depth with
  | zero => exact .fail
  | succ depth ih =>
    unfold readGroup
    refine Reads.after .get fun cursor => Reads.after (Meets.accept _).map fun _ => ?_
    refine (reads_readGroupBody (reads_readChoice ih)).finish fun t => ?_
    refine (Meets.accept _).andThen fun closed => ?_
    split
    · exact .pure fun _ _ _ h => h
    · exact Meets.read.andThen fun _ => .throw

end Reader

/-- A pattern that was read is well-formed, and its own number comes before those of its groups. -/
theorem Source.wellFormed_of_parse {s : Source} {p : Pattern} (h : s.parse = .ok p) :
    p.WellFormed ∧ 1 ≤ p.groupCount := by
  unfold Source.parse at h
  dsimp only at h
  split at h
  · simp at h
  · rename_i body cursor hrun
    obtain rfl := Except.ok.inj h
    obtain ⟨choice, d, hchoice, hrest⟩ := Reader.bind_eq_ok.mp hrun
    obtain ⟨hgrown, hwf, hspan⟩ :=
      Reader.reads_readChoice (Reader.reads_readGroup nestingLimit) _ _ _ _ hchoice
    have hfinish : (do
        if (← get).rest.isEmpty then return choice else fail .unmatchedParenthesis :
          Reader Choice).Meets fun c => c = choice := by
      refine Reader.Meets.get.andThen fun c => ?_
      split
      · exact .pure rfl
      · exact .fail
    obtain ⟨-, hcontext, rfl⟩ := hfinish _ _ _ _ hrest
    refine ⟨⟨?_, ?_, by simp⟩, Nat.succ_le_succ (Nat.zero_le _)⟩
    · rw [hcontext]
      exact hwf
    · intro g hg
      obtain rfl := Option.some.inj hg
      exact hspan.outside

end UnitRegex
