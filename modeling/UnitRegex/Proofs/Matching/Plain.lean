import UnitRegex.Proofs.Matching.Outcomes
import UnitRegex.Search.Threads

/-!
Look-around bodies that are plain sequences of sets. Such a sequence matches in at most one way and
sets no captures, so a look-around with that body only tests the position.
-/

namespace UnitRegex

theorem Text.matchesAt_append (text : Text) (cursor : Nat) (a b : List CharSet) :
    text.matchesAt cursor (a ++ b) =
      (text.matchesAt cursor a && text.matchesAt (cursor + a.length) b) := by
  induction a generalizing cursor with
  | nil => simp [matchesAt]
  | cons set a ih =>
    simp only [List.cons_append, matchesAt, ih, Bool.and_assoc, List.length_cons]
    rw [show cursor + 1 + a.length = cursor + (a.length + 1) by omega]

/-- Whether a sequence of sets can be read, and from where to where. -/
def Text.sequenceEnd? (text : Text) (sets : List CharSet) (cursor : Nat) : Direction → Option Nat
  | .forward => if text.matchesAt cursor sets then some (cursor + sets.length) else none
  | .backward =>
    if sets.length ≤ cursor && text.matchesAt (cursor - sets.length) sets then
      some (cursor - sets.length)
    else none

/-- The way through a plain sequence, if it matches. -/
def Behavior.sequence (text : Text) (d : Direction) (sets : List CharSet) : Behavior := fun x =>
  ((text.sequenceEnd? sets x.cursor d).map x.moveTo).toList

namespace Behavior

variable {text : Text} {d : Direction}

theorem pass_none_none (f : Behavior) : pass d none none f = f := by
  funext x
  simp [pass, MatchState.clear, MatchState.recordAny]

theorem sequence_nil : sequence text d [] = fun x => [x] := by
  funext x
  cases d <;> simp [sequence, Text.sequenceEnd?, Text.matchesAt, MatchState.moveTo]

theorem sequence_singleton (set : CharSet) : sequence text d [set] = unit text d set := by
  funext x
  cases d with
  | forward =>
    simp only [sequence, Text.sequenceEnd?, Text.matchesAt, unit, Text.read, Bool.and_true]
    cases text[x.cursor]? with
    | none => simp
    | some c => by_cases hset : set.contains c <;> simp [hset]
  | backward =>
    simp only [sequence, Text.sequenceEnd?, Text.matchesAt, unit, Text.read, Bool.and_true]
    by_cases hzero : x.cursor = 0
    · simp [hzero]
    · have hpos : 1 ≤ x.cursor := by omega
      simp only [List.length_singleton, hpos, decide_true, Bool.true_and, if_neg hzero]
      cases text[x.cursor - 1]? with
      | none => simp
      | some c => by_cases hset : set.contains c <;> simp [hset]

theorem sequence_append_forward (a b : List CharSet) :
    sequence text .forward (a ++ b) =
      (sequence text .forward a).andThen (sequence text .forward b) := by
  have hend : ∀ cursor, text.sequenceEnd? (a ++ b) cursor .forward =
      (text.sequenceEnd? a cursor .forward).bind fun c => text.sequenceEnd? b c .forward := by
    intro cursor
    simp only [Text.sequenceEnd?, Text.matchesAt_append, List.length_append]
    by_cases ha : text.matchesAt cursor a
    · simp [ha, Nat.add_assoc]
    · simp [ha]
  funext x
  simp only [sequence, andThen, hend]
  cases text.sequenceEnd? a x.cursor .forward with
  | none => rfl
  | some c =>
    simp only [Option.bind_some, Option.map_some, Option.toList_some, List.flatMap_singleton]
    rfl

theorem sequence_append_backward (a b : List CharSet) :
    sequence text .backward (a ++ b) =
      (sequence text .backward b).andThen (sequence text .backward a) := by
  have hend : ∀ cursor, text.sequenceEnd? (a ++ b) cursor .backward =
      (text.sequenceEnd? b cursor .backward).bind fun c => text.sequenceEnd? a c .backward := by
    intro cursor
    simp only [Text.sequenceEnd?, Text.matchesAt_append, List.length_append]
    by_cases hb : b.length ≤ cursor
    · have hlength : (a.length + b.length ≤ cursor) = (a.length ≤ cursor - b.length) :=
        propext ⟨by omega, by omega⟩
      by_cases ha : a.length ≤ cursor - b.length
      · have hmiddle : cursor - (a.length + b.length) + a.length = cursor - b.length := by omega
        have hstart : cursor - b.length - a.length = cursor - (a.length + b.length) := by omega
        by_cases hmatch : text.matchesAt (cursor - b.length) b
        · simp [hlength, hb, ha, hmiddle, hstart, hmatch]
        · simp [hlength, hb, hmiddle, hmatch]
      · by_cases hmatch : text.matchesAt (cursor - b.length) b
        · simp [hlength, hb, ha, hmatch]
        · simp [hlength, hb, ha, hmatch]
    · have hlength : ¬a.length + b.length ≤ cursor := by omega
      simp [hlength, hb]
  funext x
  simp only [sequence, andThen, hend]
  cases text.sequenceEnd? b x.cursor .backward with
  | none => rfl
  | some c =>
    simp only [Option.bind_some, Option.map_some, Option.toList_some, List.flatMap_singleton]
    rfl

end Behavior

mutual

theorem Term.outcomes_of_plain? (flags : Flags) (text : Text) (d : Direction) (t : Term)
    {sets : List CharSet} (h : t.plain? = some sets) :
    t.outcomes flags text d = .sequence text d sets := by
  match t with
  | .unit set =>
    obtain rfl := Option.some.inj h
    rw [Behavior.sequence_singleton]
    rfl
  | .group none none body =>
    rw [Term.plain?] at h
    split at h
    · rename_i only honly
      obtain rfl := Option.some.inj h
      have hbody := body.outcomes_of_plain? flags text d honly
      rw [Term.outcomes, Behavior.pass_none_none, hbody]
      funext x
      simp
    · simp at h
  | .group (some _) _ _ | .group none (some _) _ | .anchor _ | .look _ _ _ | .backReference _ =>
    simp [Term.plain?] at h

theorem Branch.outcomes_of_plain? (flags : Flags) (text : Text) (d : Direction) (b : Branch)
    {sets : List CharSet} (h : b.plain? = some sets) :
    b.outcomes flags text d = .sequence text d sets := by
  match b with
  | .nil =>
    obtain rfl := Option.some.inj h
    rw [Behavior.sequence_nil]
    rfl
  | .cons t rest =>
    rw [Branch.plain?] at h
    split at h
    · rename_i a c ha hc
      obtain rfl := Option.some.inj h
      have ht := t.outcomes_of_plain? flags text d ha
      have hrest := rest.outcomes_of_plain? flags text d hc
      cases d with
      | forward => rw [Branch.outcomes, ht, hrest, Behavior.sequence_append_forward]
      | backward => rw [Branch.outcomes, ht, hrest, Behavior.sequence_append_backward]
    · simp at h

theorem Choice.outcomes_of_plain? (flags : Flags) (text : Text) (d : Direction) (c : Choice)
    {branches : List (List CharSet)} (h : c.plain? = some branches) :
    c.outcomes flags text d =
      fun x => branches.flatMap fun sets => Behavior.sequence text d sets x := by
  match c with
  | .one b =>
    obtain ⟨sets, hsets, rfl⟩ := Option.map_eq_some_iff.mp h
    rw [Choice.outcomes, b.outcomes_of_plain? flags text d hsets]
    funext x
    simp
  | .more b rest =>
    rw [Choice.plain?] at h
    split at h
    · rename_i sets more hsets hmore
      obtain rfl := Option.some.inj h
      rw [Choice.outcomes, b.outcomes_of_plain? flags text d hsets,
        rest.outcomes_of_plain? flags text d hmore]
      funext x
      simp [Behavior.orElse]
    · simp at h

end

/-- A look-around over plain sequences tests whether one of them can be read. -/
theorem Term.look_outcomes_of_plain? (flags : Flags) (text : Text) (d : Direction)
    (behind negated : Bool) (body : Choice) {branches : List (List CharSet)}
    (h : body.plain? = some branches) :
    (Term.look behind negated body).outcomes flags text d =
      .check fun cursor =>
        (branches.any fun sets => (text.sequenceEnd? sets cursor (.ofLook behind)).isSome) !=
          negated := by
  funext x
  simp only [Term.outcomes, body.outcomes_of_plain? flags text _ h, Behavior.look, Behavior.check]
  have hslots : ∀ y ∈ branches.flatMap fun sets =>
      Behavior.sequence text (.ofLook behind) sets x, y.slots = x.slots := by
    intro y hy
    obtain ⟨sets, -, hy⟩ := List.mem_flatMap.mp hy
    obtain ⟨cursor, -, rfl⟩ := Option.map_eq_some_iff.mp (Option.mem_toList.mp hy)
    rfl
  have hany : (branches.any fun sets =>
      (text.sequenceEnd? sets x.cursor (.ofLook behind)).isSome) =
      (branches.flatMap fun sets =>
        Behavior.sequence text (.ofLook behind) sets x).head?.isSome := by
    rw [Bool.eq_iff_iff, List.any_eq_true]
    constructor
    · rintro ⟨sets, hsets, hsome⟩
      obtain ⟨cursor, hcursor⟩ := Option.isSome_iff_exists.mp hsome
      have hmem : x.moveTo cursor ∈ branches.flatMap fun sets =>
          Behavior.sequence text (.ofLook behind) sets x :=
        List.mem_flatMap.mpr ⟨sets, hsets, by simp [Behavior.sequence, hcursor]⟩
      rw [List.isSome_head?]
      exact List.ne_nil_of_mem hmem
    · intro hsome
      obtain ⟨y, hy⟩ := Option.isSome_iff_exists.mp hsome
      obtain ⟨sets, hsets, hy⟩ := List.mem_flatMap.mp (List.mem_of_head? hy)
      obtain ⟨cursor, hcursor, -⟩ := Option.map_eq_some_iff.mp (Option.mem_toList.mp hy)
      exact ⟨sets, hsets, by simp [hcursor]⟩
  simp only [hany]
  generalize hl : (branches.flatMap fun sets =>
    Behavior.sequence text (.ofLook behind) sets x) = l at hslots
  cases l with
  | nil => cases negated <;> simp
  | cons y rest =>
    have hy : y.slots = x.slots := hslots y (by simp)
    cases negated <;> simp [hy]

end UnitRegex
