import UnitRegex.Proofs.Alphabet.CaseClosure
import UnitRegex.Proofs.Matching.Loops
import UnitRegex.Proofs.Pattern.Outline

/-!
Matching that ignores case. Two texts whose units are case-equivalent one by one cannot be told apart
by sets that are closed under case equivalence, by line starts and ends, nor by back-references that
compare canonical forms. Word boundaries tell them apart in unicode mode only.
-/

namespace UnitRegex

/-- The units of two texts have the same canonical forms one by one. -/
def Text.CaseAlike (unicode : Bool) (x y : Text) : Prop :=
  x.map (canonicalUnit unicode) = y.map (canonicalUnit unicode)

instance (unicode : Bool) (x y : Text) : Decidable (x.CaseAlike unicode y) :=
  inferInstanceAs (Decidable (_ = _))

def Leaf.isWordBoundary : Leaf → Bool
  | .anchor .wordBoundary | .anchor .notWordBoundary => true
  | _ => false

/-- Whether a pattern tests anywhere whether a word begins or ends. -/
def Pattern.hasWordBoundary (p : Pattern) : Bool := p.body.leaves.any Leaf.isWordBoundary

/-- A leaf that does not tell case-equivalent units apart. -/
def Leaf.CaseBlind (unicode : Bool) : Leaf → Prop
  | .unit set => set.Folded unicode
  | .anchor kind => unicode = false ∨ (Leaf.anchor kind).isWordBoundary = false
  | .backReference _ => True

namespace Text.CaseAlike

variable {unicode : Bool} {x y : Text}

theorem size_eq (h : x.CaseAlike unicode y) : y.size = x.size := by
  simpa using (congrArg Array.size h).symm

/-- At a position there is a unit in both texts or in none. -/
theorem getElem?_or (h : x.CaseAlike unicode y) (i : Nat) :
    x[i]? = none ∧ y[i]? = none ∨
      ∃ c d, x[i]? = some c ∧ y[i]? = some d ∧ canonicalUnit unicode c = canonicalUnit unicode d := by
  have hi : x[i]?.map (canonicalUnit unicode) = y[i]?.map (canonicalUnit unicode) := by
    rw [← Array.getElem?_map, ← Array.getElem?_map, h]
  cases hx : x[i]? with
  | none =>
    rw [hx, Option.map_none, eq_comm, Option.map_eq_none_iff] at hi
    exact .inl ⟨rfl, hi⟩
  | some c =>
    rw [hx, Option.map_some, eq_comm, Option.map_eq_some_iff] at hi
    obtain ⟨d, hd, hcd⟩ := hi
    exact .inr ⟨c, d, rfl, hd, hcd.symm⟩

/-- From a position both texts are read up to the same position, or none of them is. -/
theorem read_or (h : x.CaseAlike unicode y) (cursor : Nat) (d : Direction) :
    x.read cursor d = none ∧ y.read cursor d = none ∨
      ∃ c c' next, x.read cursor d = some (c, next) ∧ y.read cursor d = some (c', next) ∧
        canonicalUnit unicode c = canonicalUnit unicode c' := by
  have hmap (i next : Nat) : x[i]?.map (·, next) = none ∧ y[i]?.map (·, next) = none ∨
      ∃ c c' next', x[i]?.map (·, next) = some (c, next') ∧
        y[i]?.map (·, next) = some (c', next') ∧
        canonicalUnit unicode c = canonicalUnit unicode c' := by
    rcases h.getElem?_or i with ⟨hx, hy⟩ | ⟨c, c', hx, hy, hcase⟩
    · exact .inl ⟨by rw [hx, Option.map_none], by rw [hy, Option.map_none]⟩
    · exact .inr ⟨c, c', next, by rw [hx, Option.map_some], by rw [hy, Option.map_some], hcase⟩
  cases d with
  | forward => exact hmap cursor (cursor + 1)
  | backward =>
    simp only [read]
    split
    · exact .inl ⟨rfl, rfl⟩
    · exact hmap (cursor - 1) (cursor - 1)

/-- What is the same for case-equivalent units is the same in both texts. -/
theorem map_eq {α : Type} {f : CodeUnit → α} (h : x.CaseAlike unicode y)
    (hf : ∀ c d, canonicalUnit unicode c = canonicalUnit unicode d → f c = f d) (i : Nat) :
    y[i]?.map f = x[i]?.map f := by
  rcases h.getElem?_or i with ⟨hx, hy⟩ | ⟨c, d, hx, hy, hcd⟩
  · rw [hx, hy]
  · rw [hx, hy, Option.map_some, Option.map_some, hf c d hcd]

theorem any_eq {p : CodeUnit → Bool} (h : x.CaseAlike unicode y)
    (hp : ∀ c d, canonicalUnit unicode c = canonicalUnit unicode d → p c = p d) (i : Nat) :
    y[i]?.any p = x[i]?.any p := by
  rcases h.getElem?_or i with ⟨hx, hy⟩ | ⟨c, d, hx, hy, hcd⟩
  · rw [hx, hy]
  · rw [hx, hy, Option.any_some, Option.any_some, hp c d hcd]

/-- An anchor holds in one text where it holds in the other. -/
theorem holds_eq (h : x.CaseAlike unicode y) (multiline : Bool) {kind : Anchor}
    (hkind : (Leaf.anchor kind).CaseBlind unicode) (cursor : Nat) :
    kind.holds multiline y cursor = kind.holds multiline x cursor := by
  have hline := h.any_eq fun c d hcd => CodeUnit.isLineTerminator_congr hcd
  have hborders (hlegacy : unicode = false) :
      Anchor.holds.borders y cursor = Anchor.holds.borders x cursor := by
    subst hlegacy
    have hword := h.any_eq fun c d hcd => CodeUnit.isWord_congr hcd
    simp only [Anchor.holds.borders, Anchor.holds.wordAt, hword]
  cases kind with
  | caret => simp only [Anchor.holds, hline]
  | dollar => simp only [Anchor.holds, hline, h.size_eq]
  | wordBoundary => exact hborders (hkind.resolve_right (by simp [Leaf.isWordBoundary]))
  | notWordBoundary =>
    exact congrArg (!·) (hborders (hkind.resolve_right (by simp [Leaf.isWordBoundary])))

variable {flags : Flags}

/-- Back-references that ignore case compare canonical forms only. -/
theorem agree_eq (h : x.CaseAlike flags.unicode y) (hcase : flags.ignoreCase = true)
    (i j length : Nat) : y.agree flags i j length = x.agree flags i j length := by
  have hkey := h.map_eq (f := flags.caseKey) fun c d hcd => by simp [Flags.caseKey, hcase, hcd]
  induction length generalizing i j with
  | zero => rfl
  | succ length ih => rw [agree, agree, hkey, hkey, ih]

theorem readGroup_eq (h : x.CaseAlike flags.unicode y) (hcase : flags.ignoreCase = true)
    (slots : Slots) (group cursor : Nat) (d : Direction) :
    y.readGroup flags slots group cursor d = x.readGroup flags slots group cursor d := by
  cases d <;> simp only [readGroup, h.agree_eq hcase, h.size_eq]

end Text.CaseAlike

namespace Behavior

variable {x y : Text}

/-- A set that is closed under case equivalence reads both texts alike. -/
theorem unit_caseAlike {unicode : Bool} (h : x.CaseAlike unicode y) (d : Direction) {set : CharSet}
    (hset : set.Folded unicode) : unit y d set = unit x d set := by
  funext z
  unfold unit
  rcases h.read_or z.cursor d with ⟨hx, hy⟩ | ⟨c, c', next, hx, hy, hcase⟩
  · rw [hx, hy]
  · simp only [hx, hy, hset c c' hcase]

/-- The iterations of a loop depend on the length of the text only. -/
theorem repeated_congr (hsize : y.size = x.size) (d : Direction) (q : Quantifier) (f : Behavior)
    (count : Nat) (z : MatchState) : repeated y d q f count z = repeated x d q f count z := by
  have hleft (cursor : Nat) : y.left d cursor = x.left d cursor := by
    cases d with
    | forward => simp only [Text.left, hsize]
    | backward => rfl
  have hagain : ((f z).flatMap fun z' =>
      if q.min ≤ count ∧ y.left d z.cursor ≤ y.left d z'.cursor then []
      else repeated y d q f (count + 1) z') =
      (f z).flatMap fun z' =>
        if q.min ≤ count ∧ x.left d z.cursor ≤ x.left d z'.cursor then []
        else repeated x d q f (count + 1) z' := by
    simp only [hleft]
    apply List.flatMap_congr
    intro z' _
    split
    · rfl
    · exact repeated_congr hsize d q f (count + 1) z'
  rw [repeated, repeated]
  simp only [hagain]
termination_by (q.min - count, x.left d z.cursor)
decreasing_by
  rw [Prod.lex_def]
  omega

end Behavior

section

variable {flags : Flags} {x y : Text}

mutual

/-- A term whose leaves do not tell case-equivalent units apart does not either. -/
theorem Term.outcomes_caseAlike (h : x.CaseAlike flags.unicode y) (hcase : flags.ignoreCase = true)
    (d : Direction) (t : Term) (ht : ∀ leaf ∈ t.leaves, leaf.CaseBlind flags.unicode) :
    t.outcomes flags y d = t.outcomes flags x d := by
  match t with
  | .unit set => exact Behavior.unit_caseAlike h d (ht _ List.mem_cons_self)
  | .anchor kind =>
    have hkind := h.holds_eq flags.multiline (ht _ List.mem_cons_self)
    simp only [Term.outcomes, hkind]
  | .backReference group => simp only [Term.outcomes, h.readGroup_eq hcase]
  | .look behind negated body =>
    simp only [Term.outcomes, body.outcomes_caseAlike h hcase (.ofLook behind) ht]
  | .group capture none body => simp only [Term.outcomes, body.outcomes_caseAlike h hcase d ht]
  | .group capture (some q) body =>
    have hbody := body.outcomes_caseAlike h hcase d ht
    funext z
    simp only [Term.outcomes, hbody, Behavior.repeated_congr h.size_eq]

theorem Branch.outcomes_caseAlike (h : x.CaseAlike flags.unicode y)
    (hcase : flags.ignoreCase = true) (d : Direction) (b : Branch)
    (hb : ∀ leaf ∈ b.leaves, leaf.CaseBlind flags.unicode) :
    b.outcomes flags y d = b.outcomes flags x d := by
  match b with
  | .nil => rfl
  | .cons t rest =>
    have ht := t.outcomes_caseAlike h hcase d fun leaf hleaf =>
      hb leaf (List.mem_append_left _ hleaf)
    have hrest := rest.outcomes_caseAlike h hcase d fun leaf hleaf =>
      hb leaf (List.mem_append_right _ hleaf)
    cases d <;> simp only [Branch.outcomes, ht, hrest]

theorem Choice.outcomes_caseAlike (h : x.CaseAlike flags.unicode y)
    (hcase : flags.ignoreCase = true) (d : Direction) (c : Choice)
    (hc : ∀ leaf ∈ c.leaves, leaf.CaseBlind flags.unicode) :
    c.outcomes flags y d = c.outcomes flags x d := by
  match c with
  | .one b => exact b.outcomes_caseAlike h hcase d hc
  | .more b rest =>
    have hb := b.outcomes_caseAlike h hcase d fun leaf hleaf =>
      hc leaf (List.mem_append_left _ hleaf)
    have hrest := rest.outcomes_caseAlike h hcase d fun leaf hleaf =>
      hc leaf (List.mem_append_right _ hleaf)
    simp only [Choice.outcomes, hb, hrest]

end

end

end UnitRegex
