import UnitRegex.Pattern.Reader

/-!
Two spellings of one pattern: where the first has `\W` outside a class, the second may have `[^\w]`.
Neither spelling begins with a character that a number, a name or a quantifier can begin or go on
with, so these read alike, and the first pass counts the same groups.
-/

namespace UnitRegex

/-- A character that neither begins an escape nor is a bracket of a class. -/
def Ordinary (c : Char) : Prop := c ∉ ['\\', '[', ']']

instance (c : Char) : Decidable (Ordinary c) := inferInstanceAs (Decidable (c ∉ _))

/-- What is left of two spellings of a pattern, in a class or outside of one. The two numbers bound
the lengths of what is left, as the readers recurse on them. -/
inductive Respelled : Bool → Nat → Nat → List Char → List Char → Prop
  | empty {inClass : Bool} {n m : Nat} : Respelled inClass n m [] []
  | slash {inClass : Bool} {n m : Nat} : Respelled inClass (n + 1) (m + 1) ['\\'] ['\\']
  | escape {inClass : Bool} {n m : Nat} {x y : List Char} (c : Char)
    (h : Respelled inClass n m x y) :
    Respelled inClass (n + 2) (m + 2) ('\\' :: c :: x) ('\\' :: c :: y)
  | opens {inClass : Bool} {n m : Nat} {x y : List Char} (h : Respelled true n m x y) :
    Respelled inClass (n + 1) (m + 1) ('[' :: x) ('[' :: y)
  | closes {inClass : Bool} {n m : Nat} {x y : List Char} (h : Respelled false n m x y) :
    Respelled inClass (n + 1) (m + 1) (']' :: x) (']' :: y)
  | ordinary {inClass : Bool} {n m : Nat} {x y : List Char} {c : Char} (hc : Ordinary c)
    (h : Respelled inClass n m x y) : Respelled inClass (n + 1) (m + 1) (c :: x) (c :: y)
  | complement {n m : Nat} {x y : List Char} (h : Respelled false n m x y) :
    Respelled false (n + 2) (m + 5) ('\\' :: 'W' :: x) ('[' :: '^' :: '\\' :: 'w' :: ']' :: y)

variable {inClass : Bool} {n m : Nat} {x y : List Char} {c : Char}

/-- Two spellings that are shorter than the bounds. -/
def Shortened (inClass : Bool) (n m : Nat) (x y : List Char) : Prop :=
  ∃ n' m', n' < n ∧ m' < m ∧ Respelled inClass n' m' x y

@[simp]
theorem not_ordinary_slash : ¬Ordinary '\\' := by decide

@[simp]
theorem not_ordinary_open : ¬Ordinary '[' := by decide

@[simp]
theorem not_ordinary_close : ¬Ordinary ']' := by decide

theorem Ordinary.ne (h : Ordinary c) : c ≠ '\\' ∧ c ≠ '[' ∧ c ≠ ']' := by
  simpa [Ordinary] using h

/-- A character is ordinary if it has a property that none of the others has. -/
theorem ordinary_of (p : Char → Prop) (h : p c) (hnone : ¬p '\\' ∧ ¬p '[' ∧ ¬p ']') :
    Ordinary c := by
  intro hc
  simp only [List.mem_cons, List.not_mem_nil, or_false] at hc
  rcases hc with rfl | rfl | rfl
  · exact hnone.1 h
  · exact hnone.2.1 h
  · exact hnone.2.2 h

theorem ordinary_of_digitValue? {base d : Nat} (h : digitValue? base c = some d) : Ordinary c :=
  ordinary_of (digitValue? base · = some d) h (by simp [digitValue?])

namespace Respelled

theorem length_le (h : Respelled inClass n m x y) : x.length ≤ n ∧ y.length ≤ m := by
  induction h <;> simp <;> omega

/-- Any bounds do that are not below the lengths. -/
theorem of_lengths (h : Respelled inClass n m x y) (i j : Nat) :
    Respelled inClass (i + x.length) (j + y.length) x y := by
  induction h with
  | empty => exact .empty
  | slash => exact .slash
  | escape c _ ih => exact .escape c ih
  | opens _ ih => exact .opens ih
  | closes _ ih => exact .closes ih
  | ordinary hc _ ih => exact .ordinary hc ih
  | complement _ ih => exact .complement ih

theorem tight (h : Respelled inClass n m x y) : Respelled inClass x.length y.length x y := by
  simpa only [Nat.zero_add] using h.of_lengths 0 0

theorem mono {n' m' : Nat} (h : Respelled inClass n m x y) (hn : n ≤ n') (hm : m ≤ m') :
    Respelled inClass n' m' x y := by
  obtain ⟨hx, hy⟩ := h.length_le
  obtain ⟨i, rfl⟩ := Nat.exists_eq_add_of_le' (Nat.le_trans hx hn)
  obtain ⟨j, rfl⟩ := Nat.exists_eq_add_of_le' (Nat.le_trans hy hm)
  exact h.of_lengths i j

theorem wider {n' m' : Nat} (h : Respelled inClass n m x y) (hn : n < n') (hm : m < m') :
    Respelled inClass n' m' x y :=
  h.mono (Nat.le_of_lt hn) (Nat.le_of_lt hm)

/-- A spelling is one of itself. -/
theorem refl (inClass : Bool) : ∀ x : List Char, Respelled inClass x.length x.length x x
  | [] => .empty
  | c :: x => by
    by_cases hc : Ordinary c
    · exact .ordinary hc (refl inClass x)
    · have hc : c ∈ ['\\', '[', ']'] := Classical.not_not.mp hc
      simp only [List.mem_cons, List.not_mem_nil, or_false] at hc
      rcases hc with rfl | rfl | rfl
      · cases x with
        | nil => exact .slash
        | cons d x => exact .escape d (refl inClass x)
      · exact .opens (refl true x)
      · exact .closes (refl false x)

/-- Both begin with the same ordinary character, or neither begins with an ordinary one. -/
theorem head (h : Respelled inClass n m x y) :
    (∃ c n' m' x' y', n' < n ∧ m' < m ∧ x = c :: x' ∧ y = c :: y' ∧ Ordinary c ∧
      Respelled inClass n' m' x' y') ∨
      (∀ c ∈ x.head?, ¬Ordinary c) ∧ ∀ c ∈ y.head?, ¬Ordinary c := by
  cases h with
  | ordinary hc h =>
    exact .inl ⟨_, _, _, _, _, Nat.lt_succ_self _, Nat.lt_succ_self _, rfl, rfl, hc, h⟩
  | _ => exact .inr (by simp)

/-- Both begin with a given ordinary character, or neither does. -/
theorem begins (h : Respelled inClass n m x y) (hc : Ordinary c) :
    (∃ n' m' x' y', n' < n ∧ m' < m ∧ x = c :: x' ∧ y = c :: y' ∧ Respelled inClass n' m' x' y') ∨
      (∀ x', x ≠ c :: x') ∧ ∀ y', y ≠ c :: y' := by
  rcases h.head with ⟨d, n', m', x, y, hn, hm, rfl, rfl, -, h'⟩ | ⟨hx, hy⟩
  · by_cases hd : d = c
    · exact .inl ⟨n', m', x, y, hn, hm, by rw [hd], by rw [hd], h'⟩
    · exact .inr ⟨fun _ heq => hd (List.cons.inj heq).1, fun _ heq => hd (List.cons.inj heq).1⟩
  · refine .inr ⟨?_, ?_⟩
    · rintro x' rfl
      exact hx c rfl hc
    · rintro y' rfl
      exact hy c rfl hc

/-- Both begin with a given escape, or neither does, if it is not the one that is spelled in another
way. -/
theorem escapes (h : Respelled inClass n m x y) (hc : c ≠ 'W') :
    (∃ n' m' x' y', n' < n ∧ m' < m ∧ x = '\\' :: c :: x' ∧ y = '\\' :: c :: y' ∧
      Respelled inClass n' m' x' y') ∨
      (∀ x', x ≠ '\\' :: c :: x') ∧ ∀ y', y ≠ '\\' :: c :: y' := by
  cases h with
  | @escape _ n' m' x y d h =>
    by_cases hd : d = c
    · exact .inl ⟨n', m', x, y, by omega, by omega, by rw [hd], by rw [hd], h⟩
    · exact .inr (by simp [hd])
  | complement _ => exact .inr (by simp [Ne.symm hc])
  | @ordinary _ _ _ _ _ d hd _ =>
    exact .inr (by simp [hd.ne])
  | _ => exact .inr (by simp)

/-- Both are at their end, or in front of the end of a class, or neither is. -/
theorem closing (h : Respelled true n m x y) :
    (x = [] ∧ y = []) ∨ (∃ x' y', x = ']' :: x' ∧ y = ']' :: y' ∧ Respelled false n m x' y') ∨
      (x ≠ [] ∧ ∀ x', x ≠ ']' :: x') ∧ y ≠ [] ∧ ∀ y', y ≠ ']' :: y' := by
  cases h with
  | empty => exact .inl ⟨rfl, rfl⟩
  | closes h => exact .inr (.inl ⟨_, _, rfl, rfl, h.wider (by omega) (by omega)⟩)
  | @ordinary _ _ _ _ _ c hc _ =>
    exact .inr (.inr (by simp [hc.ne]))
  | _ => exact .inr (.inr (by simp))

end Respelled

/-! ### Numbers -/

theorem digitValue?_of_not {base : Nat} (h : ¬Ordinary c) : digitValue? base c = none :=
  Option.eq_none_iff_forall_ne_some.mpr fun _ hdigit => h (ordinary_of_digitValue? hdigit)

theorem takeDigits_of_head {base : Nat} (h : ∀ c ∈ x.head?, ¬Ordinary c) :
    takeDigits base x = ([], x) := by
  cases x with
  | nil => rfl
  | cons c x => simp only [takeDigits, digitValue?_of_not (h c rfl)]

theorem readOctal_of_head {value count : Nat} (h : ∀ c ∈ x.head?, ¬Ordinary c) :
    readOctal value count x = (value, x) := by
  cases count with
  | zero => rfl
  | succ count =>
    cases x with
    | nil => rfl
    | cons c x => simp only [readOctal, digitValue?_of_not (h c rfl)]

theorem readHex?_of_head {value count : Nat} (h : ∀ c ∈ x.head?, ¬Ordinary c) :
    readHex? value (count + 1) x = none := by
  cases x with
  | nil => rfl
  | cons c x => simp only [readHex?, digitValue?_of_not (h c rfl)]

/-- Whether a digit follows. -/
theorem Respelled.any_isDigit (h : Respelled inClass n m x y) :
    x.head?.any Char.isDigit = y.head?.any Char.isDigit := by
  have hnone {z : List Char} (hz : ∀ c ∈ z.head?, ¬Ordinary c) :
      z.head?.any Char.isDigit = false := by
    cases z with
    | nil => rfl
    | cons c z =>
      rw [List.head?_cons, Option.any_some, Bool.eq_false_iff]
      exact fun hdigit => hz c rfl (ordinary_of (Char.isDigit · = true) hdigit (by decide))
  rcases h.head with ⟨c, n', m', x, y, -, -, rfl, rfl, -, -⟩ | ⟨hx, hy⟩
  · rfl
  · rw [hnone hx, hnone hy]

/-- Two readings of something that may be missing, in front of two spellings. -/
def ReadAlike {α : Type} (inClass : Bool) (n m : Nat) (first second : Option (α × List Char)) :
    Prop :=
  (first = none ∧ second = none) ∨
    ∃ a x y, first = some (a, x) ∧ second = some (a, y) ∧ Respelled inClass n m x y

theorem ReadAlike.wider {α : Type} {first second : Option (α × List Char)} {n' m' : Nat}
    (h : ReadAlike inClass n m first second) (hn : n < n') (hm : m < m') :
    ReadAlike inClass n' m' first second :=
  h.imp_right fun ⟨a, x, y, hx, hy, hrest⟩ => ⟨a, x, y, hx, hy, hrest.wider hn hm⟩

namespace Respelled

theorem takeDigits (base : Nat) (h : Respelled inClass n m x y) :
    ∃ digits x' y', takeDigits base x = (digits, x') ∧ takeDigits base y = (digits, y') ∧
      Respelled inClass n m x' y' := by
  induction x generalizing n m y with
  | nil =>
    cases h
    exact ⟨[], [], [], rfl, rfl, .empty⟩
  | cons c x ih =>
    rcases h.head with ⟨c, n', m', x, y, hn, hm, hx, rfl, -, h'⟩ | ⟨hx, hy⟩
    · cases hx
      cases hdigit : digitValue? base c with
      | none =>
        refine ⟨[], c :: x, c :: y, ?_, ?_, h⟩ <;> simp only [UnitRegex.takeDigits, hdigit]
      | some d =>
        obtain ⟨digits, x', y', hx, hy, hrest⟩ := ih h'
        refine ⟨d :: digits, x', y', ?_, ?_, hrest.wider hn hm⟩ <;>
          simp only [UnitRegex.takeDigits, hdigit, hx, hy]
    · exact ⟨[], _, _, takeDigits_of_head hx, takeDigits_of_head hy, h⟩

theorem readOctal (value count : Nat) (h : Respelled inClass n m x y) :
    ∃ value' x' y', readOctal value count x = (value', x') ∧
      readOctal value count y = (value', y') ∧ Respelled inClass n m x' y' := by
  induction count generalizing value n m x y with
  | zero => exact ⟨value, x, y, rfl, rfl, h⟩
  | succ count ih =>
    rcases h.head with ⟨c, n', m', x, y, hn, hm, rfl, rfl, -, h'⟩ | ⟨hx, hy⟩
    · cases hdigit : digitValue? 8 c with
      | none =>
        refine ⟨value, c :: x, c :: y, ?_, ?_, h⟩ <;> simp only [UnitRegex.readOctal, hdigit]
      | some d =>
        simp only [UnitRegex.readOctal, hdigit]
        split
        · obtain ⟨value', x', y', hx, hy, hrest⟩ := ih (value * 8 + d) h'
          exact ⟨value', x', y', hx, hy, hrest.wider hn hm⟩
        · exact ⟨value, c :: x, c :: y, rfl, rfl, h⟩
    · exact ⟨value, x, y, readOctal_of_head hx, readOctal_of_head hy, h⟩

theorem readHex? (value count : Nat) (h : Respelled inClass n m x y) :
    ReadAlike inClass n m (readHex? value count x) (readHex? value count y) := by
  induction count generalizing value n m x y with
  | zero => exact .inr ⟨value, x, y, rfl, rfl, h⟩
  | succ count ih =>
    rcases h.head with ⟨c, n', m', x, y, hn, hm, rfl, rfl, -, h'⟩ | ⟨hx, hy⟩
    · cases hdigit : digitValue? 16 c with
      | none =>
        simp only [UnitRegex.readHex?, hdigit]
        exact .inl ⟨rfl, rfl⟩
      | some d =>
        simp only [UnitRegex.readHex?, hdigit]
        exact (ih (value * 16 + d) h').wider hn hm
    · exact .inl ⟨readHex?_of_head hx, readHex?_of_head hy⟩

theorem readBraces? (h : Respelled inClass n m x y) :
    ReadAlike inClass n m (readBraces? x) (readBraces? y) := by
  obtain ⟨low, x', y', hx, hy, hlow⟩ := h.takeDigits 10
  simp only [UnitRegex.readBraces?, hx, hy]
  cases low with
  | nil => exact .inl ⟨rfl, rfl⟩
  | cons d low =>
    rcases hlow.begins (c := '}') (by decide) with
      ⟨n', m', x', y', hn, hm, rfl, rfl, hrest⟩ | ⟨hx', hy'⟩
    · exact .inr ⟨_, x', y', rfl, rfl, hrest.wider hn hm⟩
    rcases hlow.begins (c := ',') (by decide) with
      ⟨n', m', x', y', hn, hm, rfl, rfl, hcomma⟩ | ⟨hx'', hy''⟩
    · rcases hcomma.begins (c := '}') (by decide) with
        ⟨n'', m'', x', y', hn', hm', rfl, rfl, hrest⟩ | ⟨hx', hy'⟩
      · exact .inr ⟨_, x', y', rfl, rfl, hrest.mono (by omega) (by omega)⟩
      obtain ⟨high, x'', y'', hx, hy, hhigh⟩ := hcomma.takeDigits 10
      simp only [hx, hy]
      cases high with
      | nil => exact .inl ⟨rfl, rfl⟩
      | cons e high =>
        rcases hhigh.begins (c := '}') (by decide) with
          ⟨n'', m'', x'', y'', hn', hm', rfl, rfl, hrest⟩ | ⟨hx'', hy''⟩
        · exact .inr ⟨_, x'', y'', rfl, rfl, hrest.mono (by omega) (by omega)⟩
        · left
          simp [hx'', hy'']
    · left
      simp [hx', hx'', hy', hy'']

end Respelled

/-! ### Names and quantifiers -/

theorem ordinary_of_nameChar (h : isNameStart c ∨ isNameContinuation c) : Ordinary c :=
  ordinary_of (fun c => isNameStart c ∨ isNameContinuation c) h (by decide)

namespace Respelled

/-- A name is the same in both spellings, and it has only ordinary characters. -/
theorem takeName {name : List Char} (h : Respelled inClass n m x y)
    (hname : ∀ c ∈ name, Ordinary c) {result : String} {x' : List Char}
    (htake : takeName name x = .ok (result, x')) :
    (∀ c ∈ result.toList, Ordinary c) ∧
      ∃ y', takeName name y = .ok (result, y') ∧ Respelled inClass n m x' y' := by
  induction x generalizing name n m y with
  | nil => cases htake
  | cons c x ih =>
    rcases h.head with ⟨c, n', m', x, y, hn, hm, hx, rfl, hc, h'⟩ | ⟨hx, -⟩
    · cases hx
      rw [UnitRegex.takeName] at htake ⊢
      split at htake
      · rename_i hend
        cases htake
        rw [if_pos hend]
        exact ⟨by simpa using hname, y, rfl, h'.wider hn hm⟩
      · rename_i hend
        rw [if_neg hend]
        split at htake
        · rename_i hchar
          rw [if_pos hchar]
          obtain ⟨hresult, y', hy, hrest⟩ := ih h' (by simpa [hc] using hname) htake
          exact ⟨hresult, y', hy, hrest.wider hn hm⟩
        · cases htake
    · exfalso
      have hc := hx c rfl
      rw [UnitRegex.takeName] at htake
      split at htake
      · rename_i hend
        exact hc (hend.1 ▸ by decide)
      · split at htake
        · rename_i hchar
          exact hc (ordinary_of_nameChar (hchar.imp_right And.right))
        · cases htake

theorem startsRange (h : Respelled inClass n m x y) : startsRange x = startsRange y := by
  rcases h.begins (c := '-') (by decide) with ⟨n', m', x, y, hn, hm, rfl, rfl, hrest⟩ | ⟨hx, hy⟩
  · cases hrest with
    | @ordinary _ _ _ _ _ d hd _ =>
      have hclose : d ≠ ']' := hd.ne.2.2
      simp [UnitRegex.startsRange]
    | _ => rfl
  · simp [UnitRegex.startsRange, hx, hy]

theorem startsQuantifier (h : Respelled inClass n m x y) :
    startsQuantifier x = startsQuantifier y := by
  rcases h.head with ⟨c, n', m', x, y, hn, hm, rfl, rfl, hc, hrest⟩ | ⟨hx, hy⟩
  · unfold UnitRegex.startsQuantifier
    rcases hrest.readBraces? with ⟨hx, hy⟩ | ⟨_, _, _, hx, hy, -⟩
    · split <;> simp_all
    · split <;> simp_all
  · have hnone {z : List Char} (hz : ∀ c ∈ z.head?, ¬Ordinary c) :
        UnitRegex.startsQuantifier z = false := by
      unfold UnitRegex.startsQuantifier
      split <;> first | rfl | exact absurd (hz _ rfl) (by decide)
    rw [hnone hx, hnone hy]

end Respelled

/-! ### The first pass -/

/-- Two first passes that found the same groups. Their names may differ where they have characters
that no name has. -/
structure GroupScan.Alike (scan scan' : GroupScan) : Prop where
  count : scan.count = scan'.count
  unnamed : scan.names = [] ↔ scan'.names = []
  named : ∀ name : String, (∀ c ∈ name.toList, Ordinary c) →
    (scan.names.find? (·.1 == name)).map (·.2) = (scan'.names.find? (·.1 == name)).map (·.2)

namespace Respelled

variable {scan scan' : GroupScan}

/-- The characters up to the end of a name are the same unless they make no name. -/
theorem takeWhile (h : Respelled inClass n m x y) :
    x.takeWhile (· != '>') = y.takeWhile (· != '>') ∨
      (∃ c ∈ x.takeWhile (· != '>'), ¬Ordinary c) ∧ ∃ c ∈ y.takeWhile (· != '>'), ¬Ordinary c := by
  induction x generalizing n m y with
  | nil =>
    cases h
    exact .inl rfl
  | cons c x ih =>
    rcases h.head with ⟨c, n', m', x, y, -, -, hx, rfl, -, h'⟩ | ⟨hx, hy⟩
    · cases hx
      by_cases hend : c = '>'
      · subst hend
        exact .inl rfl
      · rw [List.takeWhile_cons_of_pos (by simpa using hend),
          List.takeWhile_cons_of_pos (by simpa using hend)]
        rcases ih h' with heq | ⟨⟨d, hd, hdx⟩, e, he, hey⟩
        · exact .inl (congrArg (c :: ·) heq)
        · exact .inr ⟨⟨d, List.mem_cons_of_mem c hd, hdx⟩, e, List.mem_cons_of_mem c he, hey⟩
    · right
      have hnot : ¬Ordinary c := hx c rfl
      cases h with
      | ordinary hc _ => exact absurd hc hnot
      | complement _ => exact ⟨⟨'\\', by simp⟩, '[', by simp⟩
      | _ => exact ⟨⟨_, by simp, hnot⟩, _, by simp, hnot⟩

/-- No name that can be referred to tells the names apart that the spellings begin with. -/
theorem beq_name (h : Respelled inClass n m x y) {name : String}
    (hname : ∀ c ∈ name.toList, Ordinary c) :
    (String.ofList (x.takeWhile (· != '>')) == name) =
      (String.ofList (y.takeWhile (· != '>')) == name) := by
  have hne {chars : List Char} (hchars : ∃ c ∈ chars, ¬Ordinary c) :
      (String.ofList chars == name) = false := by
    obtain ⟨c, hc, hnot⟩ := hchars
    rw [beq_eq_false_iff_ne]
    rintro rfl
    exact hnot (hname c (by simpa using hc))
  rcases h.takeWhile with heq | ⟨hx, hy⟩
  · rw [heq]
  · rw [hne hx, hne hy]

theorem note_named (h : Respelled inClass n m x y) (hscan : scan.Alike scan') :
    GroupScan.Alike
      ⟨scan.count + 1,
        scan.names ++ [(String.ofList (x.takeWhile (· != '>')), scan.count + 1)]⟩
      ⟨scan'.count + 1,
        scan'.names ++ [(String.ofList (y.takeWhile (· != '>')), scan'.count + 1)]⟩ where
  count := congrArg (· + 1) hscan.count
  unnamed := by simp
  named name hname := by
    rw [List.find?_append, List.find?_append, Option.map_or, Option.map_or,
      hscan.named name hname, List.find?_singleton, List.find?_singleton, h.beq_name hname,
      hscan.count]
    split <;> rfl

/-- What is noted at a parenthesis. -/
theorem note (h : Respelled inClass n m x y) (hscan : scan.Alike scan') :
    (scan.note x).Alike (scan'.note y) := by
  have hplain : GroupScan.Alike { scan with count := scan.count + 1 }
      { scan' with count := scan'.count + 1 } :=
    ⟨congrArg (· + 1) hscan.count, hscan.unnamed, hscan.named⟩
  unfold GroupScan.note
  rcases h.begins (c := '?') (by decide) with ⟨_, _, x, y, -, -, rfl, rfl, hmark⟩ | ⟨hx, hy⟩
  · rcases hmark.begins (c := '<') (by decide) with ⟨_, _, x, y, -, -, rfl, rfl, hless⟩ | ⟨hx, hy⟩
    · rcases hless.begins (c := '=') (by decide) with ⟨_, _, x, y, -, -, rfl, rfl, -⟩ | ⟨hx, hy⟩
      · exact hscan
      rcases hless.begins (c := '!') (by decide) with ⟨_, _, x, y, -, -, rfl, rfl, -⟩ | ⟨hx', hy'⟩
      · exact hscan
      simpa [hx, hx', hy, hy'] using hless.note_named hscan
    · simpa [hx, hy] using hscan
  · simpa [hx, hy] using hplain

theorem run (h : Respelled inClass n m x y) (hscan : scan.Alike scan') :
    (scan.run inClass x).Alike (scan'.run inClass y) := by
  induction h generalizing scan scan' with
  | empty => exact hscan
  | slash => exact hscan
  | escape c _ ih => exact ih hscan
  | opens _ ih => exact ih hscan
  | closes _ ih => exact ih hscan
  | @ordinary inClass n m x y c hc h ih =>
    by_cases hparen : c = '('
    · subst hparen
      rw [GroupScan.run, GroupScan.run]
      split
      · exact ih hscan
      · exact ih (h.note hscan)
    · obtain ⟨hslash, hopen, hclose⟩ := hc.ne
      have hrun (scan : GroupScan) (z : List Char) :
          scan.run inClass (c :: z) = scan.run inClass z := by
        rw [GroupScan.run] <;> simp_all
      rw [hrun, hrun]
      exact ih hscan
  | complement _ ih => exact ih hscan

theorem scanGroups (h : Respelled false n m x y) : (scanGroups x).Alike (scanGroups y) :=
  h.run ⟨rfl, Iff.rfl, fun _ _ => rfl⟩

end Respelled

/-! ### Occurrences -/

/-- Whether a text at the front of a pattern ends in a class. It may also end in a backslash, which
escapes what stands behind it. -/
def inClassAfter (inClass : Bool) : List Char → Option Bool
  | [] => some inClass
  | '\\' :: [] => none
  | '\\' :: _ :: rest => inClassAfter inClass rest
  | '[' :: rest => inClassAfter true rest
  | ']' :: rest => inClassAfter false rest
  | _ :: rest => inClassAfter inClass rest

theorem respelled_of_inClassAfter {front : List Char} (back : List Char)
    (h : inClassAfter inClass front = some false) :
    ∃ n m, Respelled inClass n m (front ++ '\\' :: 'W' :: back)
      (front ++ '[' :: '^' :: '\\' :: 'w' :: ']' :: back) := by
  fun_induction inClassAfter inClass front with
  | case1 inClass =>
    obtain rfl : inClass = false := Option.some.inj h
    exact ⟨_, _, .complement (.refl false back)⟩
  | case2 => cases h
  | case3 inClass c rest ih =>
    obtain ⟨n, m, h⟩ := ih h
    exact ⟨_, _, h.escape c⟩
  | case4 inClass rest ih =>
    obtain ⟨n, m, h⟩ := ih h
    exact ⟨_, _, h.opens⟩
  | case5 inClass rest ih =>
    obtain ⟨n, m, h⟩ := ih h
    exact ⟨_, _, h.closes⟩
  | case6 inClass c rest hslash hescape hopen hclose ih =>
    obtain ⟨n, m, h⟩ := ih h
    refine ⟨_, _, h.ordinary ?_⟩
    simp only [Ordinary, List.mem_cons, List.not_mem_nil, or_false, not_or]
    refine ⟨?_, hopen, hclose⟩
    rintro rfl
    cases rest with
    | nil => exact hslash rfl rfl
    | cons d rest => exact hescape d rest rfl rfl

end UnitRegex
