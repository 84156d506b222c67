import Mathlib.Order.Bounds.Defs
import UnitRegex.Proofs.Engine.Offsets
import UnitRegex.Proofs.Matching.Plain
import UnitRegex.Proofs.Pattern.Escaped

/-!
Escaped texts search for substrings. The literals of an escaped text are one plain sequence of units,
so its matches are the places at which the encoding of the text occurs, and a search finds the first
of them.
-/

namespace UnitRegex

/-- The units of a text from a position on begin with some units. -/
def Text.OccursAt (text : Text) (units : List CodeUnit) (i : Nat) : Prop :=
  units <+: text.toList.drop i

theorem CharSet.contains_single {a c : CodeUnit} : (single a).contains c = true ↔ c = a := by
  rw [contains_iff, mem_iff]
  simp [single, ofInterval, Interval.mem_single]

namespace Text

instance (text : Text) (units : List CodeUnit) (i : Nat) : Decidable (text.OccursAt units i) :=
  inferInstanceAs (Decidable (_ <+: _))

/-- Only nothing at all occurs behind the end of a text. -/
theorem OccursAt.le_size {text : Text} {units : List CodeUnit} {i : Nat}
    (h : text.OccursAt units i) (hnil : units = [] → i ≤ text.size) : i ≤ text.size := by
  apply Classical.byContradiction
  intro hlt
  have hdrop : text.toList.drop i = [] := by
    simp only [List.drop_eq_nil_iff, Array.length_toList]
    omega
  rw [OccursAt, hdrop, List.prefix_nil] at h
  exact hlt (hnil h)

theorem toList_ofString (t : String) :
    (ofString t).toList = t.toList.flatMap fun c => encodeCodePoint c.toNat := by
  have hfold (chars : List Char) (text : Text) :
      (chars.foldl (fun text c => text.appendList (encodeCodePoint c.toNat)) text).toList =
        text.toList ++ chars.flatMap fun c => encodeCodePoint c.toNat := by
    induction chars generalizing text with
    | nil => simp
    | cons c chars ih =>
      rw [List.foldl_cons, ih]
      simp [List.append_assoc]
  rw [ofString, String.foldl_eq_foldl_toList, hfold]
  rfl

/-- One unit after the other is read where the units occur. -/
theorem matchesAt_singles {text : Text} {units : List CodeUnit} {i : Nat} :
    text.matchesAt i (units.map CharSet.single) = true ↔ text.OccursAt units i := by
  induction units generalizing i with
  | nil => simp [matchesAt, OccursAt]
  | cons c units ih =>
    rw [List.map_cons, matchesAt, OccursAt]
    by_cases hi : i < text.size
    · have hdrop : text.toList.drop i = text[i] :: text.toList.drop (i + 1) := by
        rw [List.drop_eq_getElem_cons (by simpa using hi)]
        simp
      rw [Array.getElem?_eq_getElem hi, hdrop, List.cons_prefix_cons, Bool.and_eq_true, ih]
      simp only [Option.any_some, CharSet.contains_single, OccursAt]
      rw [eq_comm]
    · have hdrop : text.toList.drop i = [] := by
        simp only [List.drop_eq_nil_iff, Array.length_toList]
        omega
      rw [Array.getElem?_eq_none (by omega), hdrop]
      simp

end Text

/-! ### Literals -/

section

variable {f : Flags} (hcase : f.ignoreCase = false)
include hcase

theorem Branch.plain?_units (units : List CodeUnit) :
    (Branch.ofList (units.map fun c => f.unitTerm (CharSet.single c))).plain? =
      some (units.map CharSet.single) := by
  have hunit (set : CharSet) : f.unitTerm set = .unit set := by simp [Flags.unitTerm, hcase]
  simp only [hunit]
  induction units with
  | nil => rfl
  | cons c units ih =>
    simp only [List.map_cons, Branch.ofList] at ih ⊢
    rw [Branch.plain?, ih]
    rfl

/-- A literal is the plain sequence of its units, unless case is ignored. -/
theorem Flags.plain?_literalTerm (n : Nat) :
    (f.literalTerm n).plain? = some ((encodeCodePoint n).map CharSet.single) := by
  unfold literalTerm
  split
  · rename_i c hunits
    rw [hunits, unitTerm, hcase]
    rfl
  · rw [Term.plain?, Choice.plain?, Branch.plain?_units hcase]
    rfl

theorem Branch.plain?_literals (chars : List Char) :
    (Branch.ofList (chars.map fun c => f.literalTerm c.toNat)).plain? =
      some ((chars.flatMap fun c => encodeCodePoint c.toNat).map CharSet.single) := by
  induction chars with
  | nil => rfl
  | cons c chars ih =>
    simp only [List.map_cons, Branch.ofList] at ih ⊢
    rw [Branch.plain?, f.plain?_literalTerm hcase, ih]
    simp

end

mutual

/-- A plain sequence has no look-arounds. -/
theorem Term.admits_of_plain? (t : Term) {sets : List CharSet} (h : t.plain? = some sets) 
    {limit : Nat} : ∀ x ∈ t.parts, (Draft.Invariant.among limit [] []).Admits x := by
  match t with
  | .unit set =>
    intro x hx
    obtain rfl := List.mem_singleton.mp hx
    exact fun _ => trivial
  | .group none none body =>
    rw [Term.plain?] at h
    split at h
    · rename_i only honly
      exact body.admits_of_plain? honly
    · cases h
  | .group (some _) _ _ | .group none (some _) _ | .anchor _ | .look _ _ _ | .backReference _ =>
    simp [Term.plain?] at h

theorem Branch.admits_of_plain? (b : Branch) {sets : List CharSet} (h : b.plain? = some sets)
    {limit : Nat} : ∀ x ∈ b.parts, (Draft.Invariant.among limit [] []).Admits x := by
  match b with
  | .nil => exact fun _ hx => by cases hx
  | .cons t rest =>
    rw [Branch.plain?] at h
    split at h
    · rename_i front back hfront hback
      intro x hx
      rcases List.mem_append.mp hx with hx | hx
      · exact t.admits_of_plain? hfront x hx
      · exact rest.admits_of_plain? hback x hx
    · cases h

theorem Choice.admits_of_plain? (c : Choice) {rows : List (List CharSet)} (h : c.plain? = some rows)
    {limit : Nat} : ∀ x ∈ c.parts, (Draft.Invariant.among limit [] []).Admits x := by
  match c with
  | .one b =>
    obtain ⟨only, honly, -⟩ := Option.map_eq_some_iff.mp h
    exact b.admits_of_plain? honly
  | .more b rest =>
    rw [Choice.plain?] at h
    split at h
    · rename_i first more hfirst hmore
      intro x hx
      rcases List.mem_append.mp hx with hx | hx
      · exact b.admits_of_plain? hfirst x hx
      · exact rest.admits_of_plain? hmore x hx
    · cases h

end

/-- A pattern without groups that is a plain sequence matches where the sequence can be read. -/
theorem Pattern.matchAt?_of_plain? {p : Pattern} {sets : List CharSet}
    (hplain : p.body.plain? = some [sets]) (hone : p.groupCount = 1) (text : Text) (i : Nat) :
    p.matchAt? text i =
      if text.matchesAt i sets then some ⟨i + sets.length, #[i, (i + sets.length : Nat)]⟩
      else none := by
  have hbody : p.body.outcomes p.flags text .forward = .sequence text .forward sets := by
    rw [p.body.outcomes_of_plain? p.flags text .forward hplain]
    funext x
    simp
  rw [matchAt?, outcomes, root, Term.outcomes, hbody, hone]
  by_cases hmatch : text.matchesAt i sets = true
  · have hend : text.sequenceEnd? sets i .forward = some (i + sets.length) := if_pos hmatch
    rw [if_pos hmatch, Behavior.pass, Behavior.sequence, MatchState.clear, hend]
    rfl
  · have hend : text.sequenceEnd? sets i .forward = none := if_neg hmatch
    rw [if_neg hmatch, Behavior.pass, Behavior.sequence, MatchState.clear, hend]
    rfl

/-- The pattern of an escaped text finds the first place from the start of the search on at which the
encoding of the text occurs, and nothing if there is none. It can always be read, and the flags for
case and for sticky searches are the only ones that matter. -/
theorem Engine.find_escapedPattern {config : Config} {e : Engine} (he : e.Reachable config)
    (t : String) {f : Flags} (hcase : f.ignoreCase = false) (hsticky : f.sticky = false)
    (o : Options) :
    ∃ r, (e.compile ⟨escapedPattern t, f, o⟩).1 = .ok r ∧
      ∀ (text : Text) (start : Nat), start ≤ text.size →
        (∀ i, IsLeast { i | start ≤ i ∧ text.OccursAt (Text.ofString t).toList i } i →
          r.find text start = ⟨#[i, (i + (Text.ofString t).size : Nat)]⟩) ∧
        ((∀ i, start ≤ i → ¬text.OccursAt (Text.ofString t).toList i) →
          r.find text start = .noMatch) := by
  have hparse := Source.parse_escaped t f o
  obtain ⟨r, hr, -, hmade⟩ := he.compile_of_parse hparse
  refine ⟨r, hr, fun text start hstart => ?_⟩
  generalize hp : ({ body := _, flags := f, groupCount := 1, groupNames := [], context := 0 } :
    Pattern) = p at hparse hmade
  have hplain : p.body.plain? = some [(Text.ofString t).toList.map CharSet.single] := by
    rw [← hp, Text.toList_ofString]
    simp only [Choice.plain?, Branch.plain?_literals hcase, Option.map_some]
  have hat (i : Nat) : p.matchAt? text i =
      if text.matchesAt i ((Text.ofString t).toList.map CharSet.single) then
        some ⟨i + (Text.ofString t).size, #[i, (i + (Text.ofString t).size : Nat)]⟩
      else none := by
    rw [Pattern.matchAt?_of_plain? hplain (hp ▸ rfl)]
    simp only [List.length_map, Array.length_toList]
  have hnone (i : Nat) : p.matchAt? text i = none ↔ ¬text.OccursAt (Text.ofString t).toList i := by
    rw [hat, ← Text.matchesAt_singles]
    simp
  have hfit : r.strategy.BodiesFit :=
    hmade.bodiesFit_of_among (p.body.admits_of_plain? hplain) (Nat.zero_le _) (Nat.zero_le _)
  rw [hmade.find_eq_leftmost? hfit hstart]
  constructor
  · rintro i ⟨⟨hle, hoccurs⟩, hleast⟩
    have hi : i ≤ text.size := hoccurs.le_size fun hnil =>
      (hleast ⟨Nat.le_refl start, hnil ▸ List.nil_prefix⟩).trans hstart
    have hfirst : p.FirstMatch text start i
        ⟨i + (Text.ofString t).size, #[i, (i + (Text.ofString t).size : Nat)]⟩ := by
      refine ⟨hle, hi, ?_, fun j hj hlt => (hnone j).mpr fun h => ?_⟩
      · rw [hat, if_pos (Text.matchesAt_singles.mpr hoccurs)]
      · exact absurd (hleast ⟨hj, h⟩) (Nat.not_le_of_lt hlt)
    rw [hfirst.leftmost?_eq (hp ▸ hsticky) (Nat.le_refl _) hle]
  · intro hnowhere
    have hleftmost : p.leftmost? text start = none :=
      (Pattern.leftmost?_eq_none_iff (hp ▸ hsticky) hstart).mpr fun i hle _ =>
        (hnone i).mpr (hnowhere i hle)
    rw [hleftmost]

/-- The pattern `\(😀` finds the encoding of `(😀` behind a high surrogate that stands alone. -/
theorem Engine.find_escapedPattern_astral :
    ∃ r, ((Engine.ofConfig {}).compile ⟨escapedPattern "(😀", { unicode := true }, {}⟩).1 = .ok r ∧
      r.find #[0xD83D, 0x28, 0xD83D, 0xDE00] 0 = ⟨#[1, 4]⟩ := by
  obtain ⟨r, hr, hfind⟩ :=
    Engine.find_escapedPattern .new "(😀" (f := { unicode := true }) rfl rfl {}
  have hunits : Text.ofString "(😀" = #[0x28, 0xD83D, 0xDE00] := by cbv
  rw [hunits] at hfind
  refine ⟨r, hr, (hfind #[0xD83D, 0x28, 0xD83D, 0xDE00] 0 (by decide)).1 1 ⟨?_, ?_⟩⟩
  · exact ⟨by decide, by decide⟩
  · rintro j ⟨-, hj⟩
    apply Nat.one_le_iff_ne_zero.mpr
    rintro rfl
    exact absurd hj (by decide)

end UnitRegex
