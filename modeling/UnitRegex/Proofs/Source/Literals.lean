import Mathlib.Data.List.Nodup
import Mathlib.Data.List.TakeWhile
import UnitRegex.Source.Literal

/-!
Reading a literal and writing it are inverse to each other. A literal is accepted iff it is cut by
its first and its last slash into options, a pattern and flags that are read; slashes of the pattern
stand between these two, so that no pattern has to be escaped.
-/

namespace UnitRegex

namespace Flag

@[simp] theorem mem_all (flag : Flag) : flag ∈ all := by cases flag <;> decide

theorem letter_injective : Function.Injective letter := by
  intro a b h
  cases a <;> cases b <;> first | rfl | exact absurd h (by decide)

theorem ofLetter?_letter (flag : Flag) : ofLetter? flag.letter = some flag := by
  cases flag <;> rfl

theorem ofLetter?_eq_some {c : Char} {flag : Flag} : ofLetter? c = some flag ↔ flag.letter = c := by
  constructor
  · intro h
    simpa using List.find?_some h
  · rintro rfl
    exact ofLetter?_letter flag

/-- The letters of the flags are those of `gimsuy`. -/
theorem exists_letter {c : Char} : (∃ flag : Flag, flag.letter = c) ↔ c ∈ "gimsuy".toList := by
  have letters : all.map letter = "gimsuy".toList := rfl
  simp [← letters]

end Flag

namespace Flags

theorem ext_has {f g : Flags} (h : ∀ flag, f.has flag = g.has flag) : f = g := by
  cases f
  cases g
  exact congr (congr (congr (congr (congr (congrArg mk (h .global)) (h .ignoreCase)) (h .multiline))
    (h .dotAll)) (h .unicode)) (h .sticky)

@[simp] theorem has_empty (flag : Flag) : (has {} flag) = false := by cases flag <;> rfl

theorem has_insert (f : Flags) (a b : Flag) :
    (f.insert a).has b = (f.has b || decide (b = a)) := by
  cases a <;> cases b <;> simp [insert, has]

/-- The flags for which a test answers yes. -/
def ofHas (test : Flag → Bool) : Flags :=
  ⟨test .global, test .ignoreCase, test .multiline, test .dotAll, test .unicode, test .sticky⟩

@[simp] theorem has_ofHas (test : Flag → Bool) (flag : Flag) : (ofHas test).has flag = test flag := by
  cases flag <;> rfl

/-- Reading adds the flags of the letters. It fails at a letter of no flag and at a flag that is
there already, be it from the start or from an earlier letter. -/
theorem read_eq_ok_iff {chars : List Char} {f g : Flags} {position : Nat} :
    read f position chars = .ok g ↔
      chars.Nodup ∧ (∀ c ∈ chars, ∃ flag : Flag, flag.letter = c ∧ f.has flag = false) ∧
        ∀ flag, g.has flag = (f.has flag || decide (flag.letter ∈ chars)) := by
  induction chars generalizing f position with
  | nil =>
    simp only [read, Except.ok.injEq, List.nodup_nil, List.not_mem_nil, false_imp_iff, implies_true,
      decide_false, Bool.or_false, true_and]
    exact ⟨by rintro rfl flag; rfl, fun h => (ext_has h).symm⟩
  | cons c rest ih =>
    rw [read]
    cases hc : Flag.ofLetter? c with
    | none =>
      have unknown (flag : Flag) : flag.letter ≠ c := fun h => by
        simp [Flag.ofLetter?_eq_some.mpr h] at hc
      simp [unknown]
    | some flag =>
      obtain rfl := Flag.ofLetter?_eq_some.mp hc
      have same (a : Flag) : a.letter = flag.letter ↔ a = flag := Flag.letter_injective.eq_iff
      by_cases repeated : f.has flag
      · simp [repeated, same]
      · have fresh : f.has flag = false := by simpa using repeated
        have added (a : Flag) (h : a.letter ≠ flag.letter) :
            (f.insert flag).has a = f.has a := by
          have other : a ≠ flag := fun e => h (e ▸ rfl)
          simp [has_insert, other]
        have spread (a : Flag) :
            ((f.insert flag).has a || decide (a.letter ∈ rest)) =
              (f.has a || decide (a.letter ∈ flag.letter :: rest)) := by
          simp [has_insert, same, Bool.or_assoc]
        simp only [fresh, Bool.false_eq_true, if_false, ih, spread, List.nodup_cons,
          List.forall_mem_cons, and_assoc]
        -- A letter behind this one is not this one: its flag would be there already.
        constructor
        · rintro ⟨distinct, allowed, has⟩
          have notAgain : flag.letter ∉ rest := by
            intro h
            obtain ⟨a, ha, free⟩ := allowed _ h
            simp [has_insert, (same a).mp ha] at free
          refine ⟨notAgain, distinct, ⟨flag, rfl, fresh⟩, fun d hd => ?_, has⟩
          obtain ⟨a, rfl, free⟩ := allowed d hd
          exact ⟨a, rfl, by rwa [added a fun e => notAgain (e ▸ hd)] at free⟩
        · rintro ⟨notAgain, distinct, -, allowed, has⟩
          refine ⟨distinct, fun d hd => ?_, has⟩
          obtain ⟨a, rfl, free⟩ := allowed d hd
          exact ⟨a, rfl, by rwa [added a fun e => notAgain (e ▸ hd)]⟩

/-- A text is read as flags iff each of its letters is a flag's and none stands twice; the flags
read are those of its letters. -/
theorem parse_eq_ok_iff {s : String} {f : Flags} :
    parse s = .ok f ↔
      s.toList.Nodup ∧ (∀ c ∈ s.toList, c ∈ "gimsuy".toList) ∧
        ∀ flag, f.has flag = decide (flag.letter ∈ s.toList) := by
  simp only [parse, read_eq_ok_iff, has_empty, and_true, Flag.exists_letter, Bool.false_or]

theorem exists_parse_iff {s : String} :
    (∃ f, parse s = .ok f) ↔ s.toList.Nodup ∧ ∀ c ∈ s.toList, c ∈ "gimsuy".toList := by
  constructor
  · rintro ⟨f, h⟩
    obtain ⟨distinct, letters, -⟩ := parse_eq_ok_iff.mp h
    exact ⟨distinct, letters⟩
  · rintro ⟨distinct, letters⟩
    exact ⟨ofHas fun flag => decide (flag.letter ∈ s.toList),
      parse_eq_ok_iff.mpr ⟨distinct, letters, fun flag => has_ofHas _ flag⟩⟩

@[simp] theorem letter_mem_letters {f : Flags} {flag : Flag} :
    flag.letter ∈ f.letters ↔ f.has flag = true := by
  simp [letters, Flag.letter_injective.eq_iff]

@[simp] theorem toList_display (f : Flags) : f.display.toList = f.letters := by simp [display]

theorem parse_display (f : Flags) : parse f.display = .ok f := by
  have distinct : f.letters.Nodup :=
    (List.Nodup.filter _ (by decide : Flag.all.Nodup)).map Flag.letter_injective
  have known : ∀ c ∈ f.letters, c ∈ "gimsuy".toList := by
    intro c hc
    obtain ⟨flag, -, rfl⟩ := List.mem_map.mp hc
    exact Flag.exists_letter.mp ⟨flag, rfl⟩
  rw [parse_eq_ok_iff, toList_display]
  exact ⟨distinct, known, fun flag => by simp⟩

/-- No flag is written as a slash. -/
theorem slash_notMem_of_parse {s : String} {f : Flags} (h : parse s = .ok f) : '/' ∉ s.toList := by
  intro slash
  obtain ⟨-, letters, -⟩ := parse_eq_ok_iff.mp h
  exact absurd (letters _ slash) (by decide)

end Flags

/-- A list that is cut at the first place where a character stands. -/
theorem cut_first_iff {chars front back : List Char} {d : Char} :
    chars.takeWhile (· != d) = front ∧ chars.dropWhile (· != d) = d :: back ↔
      chars = front ++ d :: back ∧ d ∉ front := by
  constructor
  · rintro ⟨rfl, h⟩
    refine ⟨by rw [← h, List.takeWhile_append_dropWhile], fun hd => ?_⟩
    simpa using List.mem_takeWhile_imp hd
  · rintro ⟨rfl, h⟩
    have others : ∀ c ∈ front, (c != d) = true := by
      intro c hc
      simpa using fun he : c = d => h (he ▸ hc)
    simp [List.takeWhile_append_of_pos others, List.dropWhile_append_of_pos others]

/-- What stands behind the characters in front of such a place starts with that character. -/
theorem head_dropWhile_ne {chars back : List Char} {c d : Char}
    (h : chars.dropWhile (· != d) = c :: back) : c = d := by
  have := List.head?_dropWhile_not (· != d) chars
  simpa [h] using this

namespace Source

/-- The last slash is the one with no slash behind it. -/
theorem cutLast?_eq_some_iff {chars pattern flags : List Char} :
    cutLast? chars = some (pattern, flags) ↔ chars = pattern ++ '/' :: flags ∧ '/' ∉ flags := by
  have reversed : chars = pattern ++ '/' :: flags ∧ '/' ∉ flags ↔
      chars.reverse = flags.reverse ++ '/' :: pattern.reverse ∧ '/' ∉ flags.reverse := by
    rw [List.reverse_eq_iff]
    simp
  rw [reversed, ← cut_first_iff, cutLast?]
  cases h : chars.reverse.dropWhile (· != '/') with
  | nil => simp
  | cons c front =>
    obtain rfl := head_dropWhile_ne h
    simp only [Option.some.injEq, Prod.mk.injEq, List.reverse_eq_iff, List.cons.injEq, true_and]
    exact and_comm

/-- A literal is accepted iff a first and a last slash cut it into options, pattern and flags. -/
theorem ofLiteral_eq_ok_iff {literal : String} {s : Source} :
    ofLiteral literal = .ok s ↔
      ∃ options flags : String, literal = options ++ "/" ++ s.pattern ++ "/" ++ flags ∧
        '/' ∉ options.toList ∧ Options.parse options = .ok s.options ∧
          Flags.parse flags = .ok s.flags := by
  constructor
  · intro h
    simp only [ofLiteral] at h
    split at h <;> try contradiction
    split at h <;> try contradiction
    next c body first =>
    obtain rfl := head_dropWhile_ne first
    obtain ⟨whole, noSlash⟩ := cut_first_iff.mp ⟨rfl, first⟩
    split at h <;> try contradiction
    next pattern flags last =>
    obtain ⟨rfl, -⟩ := cutLast?_eq_some_iff.mp last
    split at h <;> try contradiction
    next f readFlags =>
    split at h <;> try contradiction
    next o readOptions =>
    cases h
    refine ⟨_, _, ?_, ?_, readOptions, readFlags⟩
    · rw [← String.toList_inj]
      simpa using whole
    · simpa using noSlash
  · rintro ⟨options, flags, rfl, noSlash, readOptions, readFlags⟩
    have chars : (options ++ "/" ++ s.pattern ++ "/" ++ flags).toList =
        options.toList ++ '/' :: (s.pattern.toList ++ '/' :: flags.toList) := by simp
    obtain ⟨front, behind⟩ := cut_first_iff.mpr ⟨chars, noSlash⟩
    have cut : cutLast? (s.pattern.toList ++ '/' :: flags.toList) =
        some (s.pattern.toList, flags.toList) :=
      cutLast?_eq_some_iff.mpr ⟨rfl, Flags.slash_notMem_of_parse readFlags⟩
    have long : ¬(options ++ "/" ++ s.pattern ++ "/" ++ flags).toList.length < 2 := by
      rw [chars]
      simp
      omega
    simp only [ofLiteral, if_neg long, front, behind, cut, String.ofList_toList, readFlags,
      readOptions]

/-- Options that are read may stand in front of what a pattern and its flags are written as. -/
theorem ofLiteral_append_display {options : String} {o : Options} (pattern : String) (f : Flags)
    (noSlash : '/' ∉ options.toList) (h : Options.parse options = .ok o) :
    ofLiteral (options ++ display ⟨pattern, f, {}⟩) = .ok ⟨pattern, f, o⟩ := by
  rw [ofLiteral_eq_ok_iff]
  exact ⟨options, f.display, by simp [display, String.append_assoc], noSlash, h, f.parse_display⟩

theorem ofLiteral_display (s : Source) :
    ofLiteral s.display = .ok ⟨s.pattern, s.flags, {}⟩ := by
  have h : ofLiteral ("" ++ display ⟨s.pattern, s.flags, {}⟩) = .ok ⟨s.pattern, s.flags, {}⟩ :=
    ofLiteral_append_display s.pattern s.flags (by decide) rfl
  simpa [display] using h

/-- What is written is read again, with and without the option in front; which texts are flags; and
what is read is written so that it is read as the same pattern and flags. -/
theorem literals_round_trip :
    (∀ pattern f, ofLiteral (display ⟨pattern, f, {}⟩) = .ok ⟨pattern, f, {}⟩) ∧
    (∀ pattern f, ofLiteral ("ForceFallback=true" ++ display ⟨pattern, f, {}⟩) =
      .ok ⟨pattern, f, { forceFallback := true }⟩) ∧
    (∀ s : String, (∃ f, Flags.parse s = .ok f) ↔
      s.toList.Nodup ∧ ∀ c ∈ s.toList, c ∈ "gimsuy".toList) ∧
    (∀ f : Flags, Flags.parse f.display = .ok f) ∧
    ∀ literal s, ofLiteral literal = .ok s →
      ∃ t, ofLiteral s.display = .ok t ∧ t.pattern = s.pattern ∧ t.flags = s.flags := by
  refine ⟨fun pattern f => ofLiteral_display ⟨pattern, f, {}⟩, fun pattern f => ?_,
    fun s => Flags.exists_parse_iff, Flags.parse_display,
    fun literal s _ => ⟨_, s.ofLiteral_display, rfl, rfl⟩⟩
  exact ofLiteral_append_display pattern f (by decide) (by decide)

/-- A pattern that is made of slashes, behind an option and in front of flags in another order. -/
theorem literals_round_trip_slashes :
    ofLiteral "ForceFallback=false///é//yg" =
        .ok ⟨"//é/", { global := true, sticky := true }, {}⟩ ∧
      ∃ t, ofLiteral (display ⟨"//é/", { global := true, sticky := true }, {}⟩) = .ok t ∧
        t.pattern = "//é/" ∧ t.flags = { global := true, sticky := true } := by
  have accepted : ofLiteral "ForceFallback=false///é//yg" =
      .ok ⟨"//é/", { global := true, sticky := true }, {}⟩ := by decide
  obtain ⟨-, -, -, -, again⟩ := literals_round_trip
  exact ⟨accepted, again _ _ accepted⟩

end Source

end UnitRegex
