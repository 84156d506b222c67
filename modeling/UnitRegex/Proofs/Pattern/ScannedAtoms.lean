import UnitRegex.Proofs.Pattern.Following

/-!
Numerals, escapes and classes. Each scanner follows the reader of the same part of a pattern, and an
escape or an atom of a class consumes something wherever it is read.
-/

namespace UnitRegex

namespace PatternText

variable {s : PatternText} {depth : Nat} {chars rest : List Char}

/-! ### Numerals -/

theorem steps_scanDigits (base : Nat) (chars : List Char) (digits : List Nat) :
    s.Steps chars (s.scanDigits base digits) (digits ++ (takeDigits base chars).1)
      (takeDigits base chars).2 := by
  induction chars generalizing digits with
  | nil =>
    rw [scanDigits]
    apply Steps.peek.bind
    simp only [takeDigits, List.append_nil]
    exact .pure _
  | cons x rest ih =>
    rw [scanDigits]
    apply Steps.peek.bind
    rw [List.head?_cons, Option.bind_some, takeDigits]
    cases digitValue? base x with
    | none =>
      simp only [List.append_nil]
      exact .pure _
    | some d =>
      apply Steps.moveOne.bind
      have hrest := ih (digits ++ [d])
      rwa [List.append_assoc, List.singleton_append] at hrest

theorem steps_scanOctal (value count : Nat) (chars : List Char) :
    s.Steps chars (s.scanOctal value count) (readOctal value count chars).1
      (readOctal value count chars).2 := by
  induction count generalizing value chars with
  | zero => exact .pure _
  | succ count ih =>
    apply Steps.peek.bind
    match chars with
    | [] => exact .pure _
    | x :: rest =>
      rw [List.head?_cons, Option.bind_some, readOctal]
      cases digitValue? 8 x with
      | none => exact .pure _
      | some d =>
        dsimp only
        split
        · exact Steps.moveOne.bind (ih _ _)
        · exact .pure _

/-- Hexadecimal digits are the first of some characters. -/
theorem eq_drop_of_readHex? {value count n : Nat}
    (h : readHex? value count chars = some (n, rest)) :
    count ≤ chars.length ∧ rest = chars.drop count := by
  induction count generalizing value chars with
  | zero =>
    obtain ⟨-, rfl⟩ := Prod.mk.inj (Option.some.inj h)
    exact ⟨Nat.zero_le _, rfl⟩
  | succ count ih =>
    match chars with
    | [] => cases h
    | x :: more =>
      rw [readHex?] at h
      split at h
      · obtain ⟨hle, hdrop⟩ := ih h
        exact ⟨Nat.succ_le_succ hle, hdrop⟩
      · cases h

theorem hexAt?_eq {ahead : List Char} (h : ahead <:+ s.chars.toList) (value count : Nat) :
    s.hexAt? (s.chars.size - ahead.length) value count =
      (readHex? value count ahead).map (·.1) := by
  induction count generalizing value ahead with
  | zero => rfl
  | succ count ih =>
    rw [hexAt?, getElem?_first h]
    match ahead with
    | [] => rfl
    | x :: rest =>
      rw [List.head?_cons, Option.bind_some, readHex?, position_tail h]
      cases digitValue? 16 x with
      | none => rfl
      | some d => exact ih (suffix_tail h) (value * 16 + d)

theorem steps_scanHex?_some {count n : Nat} (h : readHex? 0 count chars = some (n, rest)) :
    s.Steps chars (s.scanHex? count) (some n) rest := by
  apply Steps.of_suffix
  intro hchars
  obtain ⟨hle, rfl⟩ := eq_drop_of_readHex? h
  apply Steps.position.bind
  rw [hexAt?_eq hchars, h]
  exact (Steps.move count hle).bind (.pure _)

theorem steps_scanHex?_none {count : Nat} (h : readHex? 0 count chars = none) :
    s.Steps chars (s.scanHex? count) none chars := by
  apply Steps.of_suffix
  intro hchars
  apply Steps.position.bind
  rw [hexAt?_eq hchars, h]
  exact .pure _

theorem suffix_takeDigits (base : Nat) (chars : List Char) :
    (takeDigits base chars).2 <:+ chars := by
  induction chars with
  | nil => exact List.suffix_refl _
  | cons x rest ih =>
    rw [takeDigits]
    cases digitValue? base x with
    | none => exact List.suffix_refl _
    | some d => exact ih.trans (List.suffix_cons x rest)

theorem digitsAt_eq {ahead : List Char} (h : ahead <:+ s.chars.toList) (digits : List Nat) :
    s.digitsAt (s.chars.size - ahead.length) digits =
      some (digits ++ (takeDigits 10 ahead).1,
        s.chars.size - (takeDigits 10 ahead).2.length) := by
  induction ahead generalizing digits with
  | nil =>
    rw [digitsAt, ← Nat.add_zero (s.chars.size - _), getElem?_ahead h]
    simp [takeDigits]
  | cons x rest ih =>
    rw [digitsAt, getElem?_first h, List.head?_cons, Option.bind_some, takeDigits,
      position_tail h]
    cases digitValue? 10 x with
    | none => simp
    | some d =>
      dsimp only
      rw [ih (suffix_tail h), List.append_assoc, List.singleton_append]

/-- Where the characters of `front` are ahead, braces are closed or not. -/
theorem steps_closeBraces (bounds : Nat × Option Nat) {front : List Char} (h : front <:+ rest) :
    s.Steps ('{' :: rest)
      (s.closeBraces (s.chars.size - ('{' :: rest).length) (s.chars.size - front.length) bounds)
      (if front.head? = some '}' then some (bounds, rest.length + 1 - front.tail.length) else none)
      ('{' :: rest) := by
  apply Steps.of_suffix
  intro hchars
  have hfront : front <:+ s.chars.toList := h.trans (suffix_tail hchars)
  rw [closeBraces, getElem?_first hfront]
  match front with
  | [] => exact .pure _
  | x :: after =>
    rw [List.head?_cons]
    split
    · have hle := length_le hfront
      have hle' := length_le hchars
      have hlen := h.length_le
      rw [List.length_cons] at hle hle' hlen
      have hlength : s.chars.size - (x :: after).length + 1 -
          (s.chars.size - ('{' :: rest).length) = rest.length + 1 - after.length := by
        rw [List.length_cons, List.length_cons]
        omega
      rw [List.tail_cons, ← hlength]
      exact (Steps.minus (by rw [List.length_cons, List.length_cons]; omega)).bind (.pure _)
    · exact .pure _

/-- Braces are read by looking at one character behind each row of digits. -/
theorem readBraces?_eq (chars : List Char) : readBraces? chars =
    let (low, front) := takeDigits 10 chars
    let min := numberUpTo maxRepeat 10 low
    let closed (bounds : Nat × Option Nat) (front : List Char) :=
      if front.head? = some '}' then some (bounds, front.tail) else none
    if low.isEmpty then none
    else if front.head? = some ',' then
      if front.tail.head? = some '}' then closed (min, none) front.tail
      else
        let (high, front) := takeDigits 10 front.tail
        if high.isEmpty then none
        else closed (min, some (numberUpTo maxRepeat 10 high)) front
    else closed (min, some min) front := by
  unfold readBraces?
  obtain ⟨low, front⟩ := takeDigits 10 chars
  dsimp only
  match low, front with
  | [], _ => rfl
  | d :: ds, [] => rfl
  | d :: ds, x :: front =>
    by_cases hbrace : x = '}'
    · subst hbrace
      rfl
    · by_cases hcomma : x = ','
      · subst hcomma
        match front with
        | [] => rfl
        | y :: front =>
          by_cases hbrace' : y = '}'
          · subst hbrace'
            rfl
          · rw [if_neg (by simp), List.head?_cons, if_pos rfl, List.tail_cons, List.head?_cons,
              if_neg (by simpa using hbrace')]
            split
            · simp_all
            · simp_all
            · simp_all
            · rename_i heq
              obtain ⟨rfl, hmore⟩ := Prod.mk.inj heq
              obtain rfl := (List.cons.inj hmore).2
              split
              · rename_i hdigits
                simp [hdigits]
              · rename_i high after hhigh hdigits
                simp [hdigits, show high ≠ [] from hhigh]
              · rename_i hnot
                have hopen : (takeDigits 10 (y :: front)).2.head? ≠ some '}' := by
                  intro hhead
                  obtain ⟨after, hafter⟩ := List.head?_eq_some_iff.mp hhead
                  exact hnot _ after (Prod.ext rfl hafter)
                rw [if_neg hopen, ite_self]
            · simp_all
      · simp [hbrace, hcomma]

theorem suffix_of_readBraces? {bounds : Nat × Option Nat}
    (h : readBraces? chars = some (bounds, rest)) : rest <:+ chars := by
  have hlow := suffix_takeDigits 10 chars
  unfold readBraces? at h
  split at h
  · cases h
  · rename_i hdigits
    obtain ⟨-, rfl⟩ := Prod.mk.inj (Option.some.inj h)
    rw [hdigits] at hlow
    exact (List.suffix_cons _ _).trans hlow
  · rename_i hdigits
    obtain ⟨-, rfl⟩ := Prod.mk.inj (Option.some.inj h)
    rw [hdigits] at hlow
    exact ((List.suffix_cons _ _).trans (List.suffix_cons _ _)).trans hlow
  · rename_i more _ _ hdigits
    rw [hdigits] at hlow
    have hhigh := (suffix_takeDigits 10 more).trans ((List.suffix_cons ',' more).trans hlow)
    split at h
    · cases h
    · rename_i hdigits'
      obtain ⟨-, rfl⟩ := Prod.mk.inj (Option.some.inj h)
      rw [hdigits'] at hhigh
      exact (List.suffix_cons _ _).trans hhigh
    · cases h
  · cases h

/-- The bounds in braces, and as many characters as they have with the braces. -/
theorem steps_scanBraces :
    s.Steps ('{' :: rest) s.scanBraces
      ((readBraces? rest).map fun x => (x.1, rest.length + 1 - x.2.length)) ('{' :: rest) := by
  apply Steps.of_suffix
  intro hchars
  have hrest := suffix_tail hchars
  have hclosed (bounds : Nat × Option Nat) {front : List Char} (h : front <:+ rest) :
      s.Steps ('{' :: rest)
        (s.closeBraces (s.chars.size - ('{' :: rest).length) (s.chars.size - front.length) bounds)
        ((if front.head? = some '}' then some (bounds, front.tail) else none).map
          fun x => (x.1, rest.length + 1 - x.2.length)) ('{' :: rest) := by
    have h := steps_closeBraces (s := s) bounds h
    split at h <;> simpa [*] using h
  apply Steps.position.bind
  rw [position_tail hchars, digitsAt_eq hrest, List.nil_append, readBraces?_eq]
  apply (Steps.ofOption rfl).bind
  have hfront := suffix_takeDigits 10 rest
  generalize takeDigits 10 rest = taken at hfront ⊢
  obtain ⟨low, front⟩ := taken
  dsimp only at hfront ⊢
  rw [getElem?_first (hfront.trans hrest)]
  split
  · exact .pure _
  · split
    · rename_i hcomma
      obtain ⟨more, rfl⟩ := List.head?_eq_some_iff.mp hcomma
      have hmore : more <:+ rest := (List.suffix_cons ',' more).trans hfront
      rw [position_tail (hfront.trans hrest), getElem?_first (hmore.trans hrest), List.tail_cons]
      split
      · rename_i hbrace
        have h := hclosed (numberUpTo maxRepeat 10 low, none) hmore
        rwa [if_pos hbrace] at h
      · rw [digitsAt_eq (hmore.trans hrest), List.nil_append]
        apply (Steps.ofOption rfl).bind
        have hhigh := suffix_takeDigits 10 more
        generalize takeDigits 10 more = taken at hhigh ⊢
        obtain ⟨high, front⟩ := taken
        dsimp only at hhigh ⊢
        split
        · exact .pure _
        · exact hclosed _ (hhigh.trans hmore)
    · exact hclosed _ hfront

/-! ### Escapes -/

/-- Half of a surrogate pair is put back if the other half does not follow. -/
theorem follows_pair {c : Cursor} {lead : Nat} (hlead : 0xD800 ≤ lead ∧ lead < 0xDC00) :
    s.Follows depth ('\\' :: 'u' :: rest) { c with rest := '\\' :: 'u' :: rest }
      (do
        let saved ← Scan.position
        s.move 2
        match ← s.scanHex? 4 with
        | some trail =>
          if 0xDC00 ≤ trail && trail < 0xE000 then
            return some (0x10000 + (← Scan.minus lead 0xD800) * 0x400 +
              (← Scan.minus trail 0xDC00))
          else
            s.goTo saved
            return some lead
        | none =>
          s.goTo saved
          return some lead)
      (match readHex? 0 4 rest with
        | some (trail, rest) =>
          if 0xDC00 ≤ trail && trail < 0xE000 then do
            Reader.moveTo rest
            return some (0x10000 + (lead - 0xD800) * 0x400 + (trail - 0xDC00))
          else return some lead
        | none => return some lead)
      fun _ left => left ≤ rest.length + 2 := by
  apply Follows.of_suffix
  intro hchars
  apply Follows.step Steps.position
  apply Follows.step (Steps.move 2 (by simp))
  cases hhex : readHex? 0 4 rest with
  | none =>
    apply Follows.step (steps_scanHex?_none hhex)
    exact .done ((Steps.goTo hchars).bind (.pure _)) (Nat.le_refl _)
  | some x =>
    obtain ⟨trail, after⟩ := x
    obtain ⟨hle, hafter⟩ := eq_drop_of_readHex? hhex
    apply Follows.step (steps_scanHex?_some hhex)
    dsimp only
    split
    · rename_i htrail
      obtain ⟨htrail, -⟩ := Bool.and_eq_true_iff.mp htrail
      apply Follows.moveTo
      apply Follows.step (Steps.minus hlead.1)
      apply Follows.step (Steps.minus (of_decide_eq_true htrail))
      apply Follows.done (.pure _)
      rw [hafter, List.length_drop]
      omega
    · exact .done ((Steps.goTo hchars).bind (.pure _)) (Nat.le_refl _)

theorem tracks_scanUnicodeEscape (chars : List Char) :
    s.Tracks depth chars s.scanUnicodeEscape readUnicodeEscape fun _ left =>
      left ≤ chars.length := by
  intro c
  apply Follows.read
  apply Follows.get
  apply Follows.step Steps.peek
  dsimp only [setting]
  split
  · rename_i hbrace
    obtain ⟨hunicode, hhead⟩ := Bool.and_eq_true_iff.mp hbrace
    obtain ⟨more, rfl⟩ := List.head?_eq_some_iff.mp (beq_iff_eq.mp hhead)
    have hle := (suffix_takeDigits 16 more).length_le
    rw [hunicode]
    apply Follows.step Steps.moveOne
    apply Follows.step (steps_scanDigits 16 more [])
    apply Follows.moveTo
    apply Tracks.moved
    rw [List.nil_append]
    split
    · exact .fail
    · apply (Tracks.accept '}').bind
      intro found rest hfound
      cases found with
      | false => exact .fail
      | true =>
        rw [Bool.not_true, if_neg Bool.false_ne_true, if_neg Bool.false_ne_true]
        split
        · exact .fail
        · have hlt := hfound.1 rfl
          exact .pure (by rw [List.length_cons]; omega)
  · rename_i hbrace
    split
    · simp_all
    · rename_i chars _ _ _
      cases hhex : readHex? 0 4 chars with
      | none =>
        apply Follows.step (steps_scanHex?_none hhex)
        exact .done (.pure _) (Nat.le_refl _)
      | some x =>
        obtain ⟨lead, rest⟩ := x
        obtain ⟨hle, hrest⟩ := eq_drop_of_readHex? hhex
        have hleft : rest.length ≤ chars.length := by
          rw [hrest, List.length_drop]
          omega
        apply Follows.step (steps_scanHex?_some hhex)
        apply Follows.step (Steps.lookingAt _)
        apply Follows.moveTo
        split
        · rename_i hpair
          obtain ⟨hlead, hprefix⟩ := Bool.and_eq_true_iff.mp hpair
          obtain ⟨more, rfl⟩ := List.isPrefixOf_iff_prefix.mp hprefix
          rw [hlead]
          simp only [Bool.and_eq_true, decide_eq_true_eq] at hlead
          apply (follows_pair ⟨hlead.1.2, hlead.2⟩).imp
          intro _ left hmore
          exact Nat.le_trans hmore hleft
        · rename_i hpair
          split
          · rename_i more hlead
            rw [hlead] at hpair
            exact absurd rfl hpair
          · exact .done (.pure _) hleft

theorem length_readOctal (value count : Nat) (chars : List Char) :
    (readOctal value count chars).2.length ≤ chars.length := by
  induction count generalizing value chars with
  | zero => exact Nat.le_refl _
  | succ count ih =>
    match chars with
    | [] => exact Nat.le_refl _
    | x :: rest =>
      rw [readOctal]
      split
      · split
        · exact Nat.le_succ_of_le (ih _ _)
        · exact Nat.le_refl _
      · exact Nat.le_refl _

/-- Without a control letter the `c` is put back. -/
theorem follows_putBackControl {c : Cursor} (h : ('c' :: rest) <:+ s.chars.toList) :
    s.Follows depth rest { c with rest := rest } s.putBackControl
      (if s.flags.unicode then Reader.fail .invalidUnicodeEscape
        else do
          Reader.moveTo ('c' :: rest)
          return .unit 0x5C)
      fun _ left => left ≤ rest.length + 1 := by
  unfold putBackControl
  split
  · exact Tracks.fail c
  · exact .moveTo (.done ((Steps.moveBack h).bind (.pure _)) (Nat.le_refl _))

theorem eq_zero_of_digit {c : Char} (h : '0' ≤ c ∧ c ≤ '9') (hc : ¬('1' ≤ c ∧ c ≤ '9')) :
    c = '0' := by
  apply Char.toNat_inj.mp
  have hlow : 48 ≤ c.toNat := h.1
  have hnot : ¬49 ≤ c.toNat := fun hle => hc ⟨hle, h.2⟩
  exact Nat.le_antisymm (Nat.le_of_lt_succ (Nat.lt_of_not_le hnot)) hlow

/-- Of the digits only zero is left to escapes without a letter, and it is put back in front of an
octal number. -/
theorem follows_scanOtherEscape {cursor : Cursor} {c : Char} (inClass : Bool)
    (h : (c :: rest) <:+ s.chars.toList) (hdigit : ¬('1' ≤ c ∧ c ≤ '9')) :
    s.Follows depth rest { cursor with rest := rest } (s.scanOtherEscape inClass c)
      (if inClass && c == 'b' then return .unit 0x08
        else if inClass && c == '-' then return .unit 0x2D
        else if c == '0' && !(rest.head?.any Char.isDigit) then return .unit 0
        else if c == '0' && !s.flags.unicode then do
          let (n, after) := readOctal 0 3 (c :: rest)
          Reader.moveTo after
          return .unit (UInt16.ofNat n)
        else if s.flags.unicode then
          if reservedCharacters.contains c then return .ofCodePoint c.toNat
          else Reader.fail .invalidEscape
        else return .ofCodePoint c.toNat)
      fun _ left => left ≤ rest.length + 1 := by
  have hle : rest.length ≤ rest.length + 1 := Nat.le_succ _
  have hzero : ('0' ≤ c ∧ c ≤ '9') ∧ (!s.flags.unicode) = true ↔
      (c == '0' && !s.flags.unicode) = true := by
    rw [Bool.and_eq_true, beq_iff_eq]
    apply and_congr_left
    intro _
    constructor
    · exact fun hc => eq_zero_of_digit hc hdigit
    · rintro rfl
      decide
  unfold scanOtherEscape
  apply Follows.step Steps.peek
  refine .ite (fun _ => .done (.pure _) hle) fun _ => ?_
  refine .ite (fun _ => .done (.pure _) hle) fun _ => ?_
  refine .ite (fun _ => .done (.pure _) hle) fun _ => ?_
  simp only [hzero]
  apply Follows.ite
  · intro hc
    obtain ⟨hc, -⟩ := Bool.and_eq_true_iff.mp hc
    obtain rfl := beq_iff_eq.mp hc
    rw [if_neg (by decide)]
    apply Follows.step (Steps.moveBack h)
    apply Follows.moveTo
    exact .done ((steps_scanOctal 0 3 _).bind (.pure _)) (length_readOctal 0 3 _)
  · intro _
    refine .ite (fun _ => ?_) fun _ => .done (.pure _) hle
    exact .ite (fun _ => .done (.pure _) hle) fun _ => Tracks.fail cursor

/-- Escapes that start with a digit above zero are read elsewhere. -/
theorem tracks_scanCharacterEscape (inClass : Bool) (chars : List Char)
    (hdigit : ∀ c rest, chars = c :: rest → ¬('1' ≤ c ∧ c ≤ '9')) :
    s.Tracks depth chars (s.scanCharacterEscape inClass) (readCharacterEscape inClass) fun _ left =>
      left ≤ chars.length := by
  intro cursor
  apply Follows.of_suffix
  intro hchars
  apply Follows.read
  apply Follows.get
  match chars with
  | [] =>
    apply Follows.step Steps.advance_nil
    exact Tracks.fail cursor
  | c :: rest =>
    have hle : rest.length ≤ (c :: rest).length := Nat.le_succ _
    apply Follows.step Steps.advance
    apply Follows.moveTo
    dsimp only [setting]
    split
    any_goals exact .done (.pure _) hle
    · apply Follows.step Steps.peek
      match rest with
      | [] => exact follows_putBackControl hchars
      | l :: after =>
        dsimp only [List.head?_cons]
        split
        · exact .moveTo (.done (Steps.moveOne.bind (.pure _)) (Nat.le_add_right _ 2))
        · exact follows_putBackControl hchars
    · cases hhex : readHex? 0 2 rest with
      | none =>
        apply Follows.step (steps_scanHex?_none hhex)
        exact .ite (fun _ => Tracks.fail cursor) fun _ => .done (.pure _) hle
      | some x =>
        obtain ⟨n, after⟩ := x
        obtain ⟨-, hafter⟩ := eq_drop_of_readHex? hhex
        apply Follows.step (steps_scanHex?_some hhex)
        apply Follows.moveTo
        apply Follows.done (.pure _)
        rw [hafter, List.length_drop, List.length_cons]
        omega
    · apply Tracks.moved
      apply (tracks_scanUnicodeEscape rest).bind
      intro value after hafter
      cases value with
      | some n => exact .pure (Nat.le_trans hafter hle)
      | none => exact .ite (fun _ => .fail) fun _ => .pure (Nat.le_trans hafter hle)
    · -- The same letters are excluded in the reader, if its cases are not those of the scanner yet.
      try (split; any_goals contradiction)
      exact follows_scanOtherEscape inClass hchars (hdigit c rest rfl)

/-- A name is read up to the `>` behind it, or up to a character that cannot belong to it. -/
theorem follows_scanGroupName (name chars : List Char) (c : Cursor) :
    s.Follows depth chars c (s.scanGroupName name)
      (match takeName name chars with
        | .ok (name, rest) => do
          Reader.moveTo rest
          return name
        | .error rest => do
          Reader.moveTo rest
          Reader.fail .invalidGroupName)
      fun _ left => left ≤ chars.length := by
  induction chars generalizing name with
  | nil =>
    rw [scanGroupName]
    apply Follows.step Steps.advance_nil
    exact .moveTo (Tracks.fail c)
  | cons x rest ih =>
    rw [scanGroupName, takeName]
    apply Follows.step Steps.advance
    dsimp only
    by_cases hend : x = '>' ∧ name ≠ []
    · rw [if_pos hend, if_pos hend]
      exact .moveTo (.done (.pure _) (Nat.le_succ _))
    · rw [if_neg hend, if_neg hend]
      by_cases hname : isNameStart x = true ∨ name ≠ [] ∧ isNameContinuation x = true
      · rw [if_pos hname, if_pos hname]
        exact (ih (x :: name)).imp fun _ _ => Nat.le_succ_of_le
      · rw [if_neg hname, if_neg hname]
        exact .moveTo (Tracks.fail c)

theorem tracks_scanGroupName (chars : List Char) :
    s.Tracks depth chars (s.scanGroupName []) readGroupName fun _ left => left ≤ chars.length :=
  fun c => .get (follows_scanGroupName [] chars { c with rest := chars })

theorem digitValue?_decimal {base : Nat} {c : Char} (h : '0' ≤ c ∧ c ≤ '9')
    (hlt : c.toNat - 48 < base) : digitValue? base c = some (c.toNat - 48) := by
  simp [digitValue?, h, hlt]

/-- An octal digit is consumed. -/
theorem length_readOctal_lt {c : Char} (h : '0' ≤ c ∧ c < '8') (rest : List Char) :
    (readOctal 0 3 (c :: rest)).2.length < (c :: rest).length := by
  have hhigh : c.toNat < 56 := h.2
  have hdecimal : '0' ≤ c ∧ c ≤ '9' := ⟨h.1, Nat.le_trans (Nat.le_of_lt hhigh) (by decide)⟩
  rw [readOctal, digitValue?_decimal hdecimal (by omega)]
  dsimp only
  rw [if_pos (by omega)]
  exact Nat.lt_succ_of_le (length_readOctal _ _ _)

theorem isLook_literalTerm (f : Flags) (n : Nat) : (f.literalTerm n).isLook = false := by
  unfold Flags.literalTerm
  split <;> rfl

/-- Nothing is consumed for a literal. -/
theorem steps_scanLiteral (n : Nat) :
    s.Steps chars (s.scanLiteral n) (s.flags.literalTerm n) chars := by
  unfold scanLiteral Flags.literalTerm encodeCodePoint
  by_cases hn : n < 0x10000
  · rw [if_pos hn, if_pos hn]
    exact .pure _
  · rw [if_neg hn, if_neg hn]
    exact (Steps.minus (Nat.le_of_not_lt hn)).bind (.pure _)

/-- A digit above zero starts a back-reference, an octal escape or a literal. -/
theorem tracks_scanDecimalEscape {c : Char} (hc : '1' ≤ c ∧ c ≤ '9') (rest : List Char) :
    s.Tracks depth (c :: rest) (s.scanDecimalEscape c) (readDecimalEscape (c :: rest))
      fun t left => left < (c :: rest).length ∧ t.isLook = false := by
  have hdecimal : '0' ≤ c ∧ c ≤ '9' := ⟨Nat.le_trans (by decide) hc.1, hc.2⟩
  have hhigh : c.toNat ≤ 57 := hc.2
  have hdigits : (takeDigits 10 (c :: rest)).2.length < (c :: rest).length := by
    rw [takeDigits, digitValue?_decimal hdecimal (by omega)]
    exact Nat.lt_succ_of_le (suffix_takeDigits 10 rest).length_le
  intro cursor
  apply Follows.of_suffix
  intro hchars
  apply Follows.read
  apply Follows.step Steps.position
  apply Follows.step (steps_scanDigits 10 (c :: rest) [])
  rw [List.nil_append]
  apply Follows.ite
  · exact fun _ => .moveTo (.done (.pure _) ⟨hdigits, rfl⟩)
  · intro _
    apply Follows.ite
    · exact fun _ => .moveTo (Tracks.fail cursor)
    · intro _
      apply Follows.step (Steps.goTo hchars)
      apply Follows.ite
      · exact fun _ => .moveTo (.done (Steps.moveOne.bind (steps_scanLiteral _))
          ⟨Nat.lt_succ_self _, isLook_literalTerm _ _⟩)
      · intro hoctal
        exact .moveTo (.done ((steps_scanOctal 0 3 _).bind (steps_scanLiteral _))
          ⟨length_readOctal_lt ⟨hdecimal.1, Nat.lt_of_not_le hoctal⟩ rest, isLook_literalTerm _ _⟩)

theorem tracks_scanNamedReference (rest : List Char) :
    s.Tracks depth ('k' :: rest) s.scanNamedReference (readNamedReference rest)
      fun t left => left ≤ rest.length ∧ t.isLook = false := by
  intro cursor
  apply Follows.step Steps.moveOne
  apply Follows.moveTo
  apply Tracks.moved
  apply (Tracks.accept '<').bind
  intro found rest' hfound
  cases found with
  | false => exact .fail
  | true =>
    rw [Bool.not_true, if_neg Bool.false_ne_true, if_neg Bool.false_ne_true]
    apply (tracks_scanGroupName rest').bind
    intro name rest'' hname
    apply Tracks.read
    dsimp only [setting]
    have hlt := hfound.1 rfl
    cases s.groups.names.find? (·.1 == name) with
    | some x => exact .pure ⟨by omega, rfl⟩
    | none => exact .fail

/-- An escape is read from the backslash on. A `c` behind it may be put back, but not the
backslash. -/
theorem tracks_scanEscape (rest : List Char) :
    s.Tracks depth ('\\' :: rest) s.scanEscape (do Reader.moveTo rest; readEscape)
      fun t left => left ≤ rest.length ∧ t.isLook = false := by
  intro cursor
  apply Follows.step Steps.moveOne
  apply Follows.moveTo
  apply Follows.read
  apply Follows.get
  apply Follows.step Steps.peek
  match rest with
  | [] => exact Tracks.fail cursor
  | c :: rest =>
    apply Follows.ite
    · intro hc
      apply ((tracks_scanDecimalEscape hc rest).moved).imp
      exact fun _ _ h => ⟨Nat.le_of_lt h.1, h.2⟩
    · intro hc
      apply Follows.ite
      · rintro ⟨rfl, -⟩
        apply ((tracks_scanNamedReference rest).moved).imp
        exact fun _ _ h => ⟨Nat.le_succ_of_le h.1, h.2⟩
      · intro _
        apply Tracks.moved
        apply (tracks_scanCharacterEscape false (c :: rest) ?_).bind
        · intro atom after hafter
          cases atom with
          | unit u => exact .pure ⟨hafter, rfl⟩
          | set set => exact .pure ⟨hafter, rfl⟩
          | astral n => exact fun _ => .done (steps_scanLiteral n) ⟨hafter, isLook_literalTerm _ _⟩
        · intro c' rest' he
          obtain ⟨rfl, -⟩ := List.cons.inj he
          exact hc

/-! ### Classes -/

theorem tracks_scanClassEscape (chars : List Char) :
    s.Tracks depth chars s.scanClassEscape readClassEscape fun _ left => left ≤ chars.length := by
  intro cursor
  apply Follows.read
  apply Follows.get
  apply Follows.step Steps.peek
  dsimp only [setting]
  cases hdigit : chars.head?.filter fun c => '1' ≤ c ∧ c ≤ '9' with
  | some d =>
    obtain ⟨hhead, hd⟩ := Option.filter_eq_some_iff.mp hdigit
    obtain ⟨rest, rfl⟩ := List.head?_eq_some_iff.mp hhead
    apply Follows.ite
    · exact fun _ => Tracks.fail cursor
    · intro _
      apply Follows.ite
      · exact fun _ => .moveTo (.done (Steps.moveOne.bind (.pure _)) (Nat.le_succ _))
      · intro _
        exact .moveTo (.done ((steps_scanOctal 0 3 _).bind (.pure _)) (length_readOctal 0 3 _))
  | none =>
    apply Follows.ite
    · exact fun _ => Tracks.fail cursor
    · intro _
      apply Tracks.moved
      apply (tracks_scanCharacterEscape true chars ?_).bind
      · intro atom after hafter
        cases atom with
        | unit u => exact .pure hafter
        | set set => exact .pure hafter
        | astral n => exact .fail
      · rintro c rest rfl hc
        have hnone := Option.filter_eq_none_iff.mp hdigit c rfl
        exact hnone (decide_eq_true hc)

/-- An atom of a class consumes something. -/
theorem tracks_scanClassAtom (chars : List Char) :
    s.Tracks depth chars s.scanClassAtom readClassAtom fun _ left => left < chars.length := by
  intro cursor
  apply Follows.of_suffix
  intro hchars
  apply Follows.get
  match chars with
  | [] =>
    apply Follows.step Steps.advance_nil
    exact Tracks.fail cursor
  | c :: rest =>
    apply Follows.step Steps.advance
    apply Follows.ite
    · rintro rfl
      apply Follows.moveTo
      apply ((tracks_scanClassEscape rest).moved).imp
      exact fun _ _ => Nat.lt_succ_of_le
    · intro _
      apply Follows.ite
      · intro _
        apply Follows.step (Steps.moveBack hchars)
        exact Tracks.fail cursor
      · exact fun _ => .moveTo (.done (.pure _) (Nat.lt_succ_self _))

theorem startsRange_iff (chars : List Char) : startsRange chars = true ↔
    ¬(chars.head? ≠ some '-' ∨ chars[1]? = none ∨ chars[1]? = some ']') := by
  match chars with
  | [] => simp [startsRange]
  | [x] => by_cases hx : x = '-' <;> simp [startsRange, hx]
  | x :: y :: rest =>
    by_cases hx : x = '-' <;> by_cases hy : y = ']' <;> simp [startsRange, hx, hy]

/-- The items of a class are read until it is closed, however much fuel is left. -/
theorem tracks_scanClassItems {opened : Nat} (hopened : opened ≤ s.chars.size) (fuel : Nat)
    (ranges : List Interval) (chars : List Char) (hfuel : chars.length < fuel) :
    s.Tracks depth chars (s.scanClassItems opened ranges) (readClassItems opened fuel ranges)
      fun _ left => left ≤ chars.length := by
  induction fuel generalizing ranges chars with
  | zero => exact absurd hfuel (Nat.not_lt_zero _)
  | succ fuel ih =>
    intro cursor
    apply Follows.get
    dsimp only
    split
    · rw [scanClassItems]
      apply Follows.step Steps.peek
      exact .throw hopened
    · rw [scanClassItems]
      apply Follows.step Steps.peek
      exact .moveTo (.done (Steps.moveOne.bind (.pure _)) (Nat.le_succ _))
    · rename_i hempty hclose
      rw [scanClassItems]
      apply Follows.step Steps.peek
      split
      · rename_i hhead
        exact absurd (List.head?_eq_none_iff.mp hhead) hempty
      · rename_i hhead
        exact absurd hhead (head?_ne_some hclose)
      · apply Tracks.moved
        apply (tracks_scanClassAtom chars).bind
        intro low behind hlow
        apply Tracks.step Steps.peek
        apply Tracks.step (Steps.peekAt 1)
        apply Tracks.get
        rintro c rfl
        have hnext (ranges : List Interval) (after : List Char)
            (hafter : after.length ≤ c.rest.length) :
            s.Tracks depth after (s.scanClassItems opened ranges)
              (readClassItems opened fuel ranges) fun _ left => left ≤ chars.length := by
          apply (ih ranges after (by omega)).imp
          intro _ left hleft
          omega
        by_cases hrange : startsRange c.rest = true
        · have hnot : ¬(!startsRange c.rest) = true := by simp [hrange]
          rw [if_neg ((startsRange_iff _).mp hrange), if_neg hnot]
          obtain ⟨more, hmore, -⟩ := exists_of_startsRange hnot
          rw [hmore, List.length_cons] at hnext
          rw [hmore]
          apply Follows.skip hmore
          apply Follows.step Steps.moveOne
          apply Tracks.moved
          apply (tracks_scanClassAtom more).bind
          intro high after hhigh
          have hafter : after.length ≤ more.length + 1 := by omega
          cases low <;> cases high
          case unit.unit a b => exact .ite (fun _ => .fail) fun _ => hnext _ after hafter
          all_goals exact .read (.ite (fun _ => .fail) fun _ => hnext _ after hafter)
        · rw [if_pos (not_not.mp (mt (startsRange_iff _).mpr hrange)),
            if_pos (by simpa using hrange)]
          exact (hnext _ c.rest (Nat.le_refl _)).moved

theorem tracks_scanClass (rest : List Char) :
    s.Tracks depth ('[' :: rest) s.scanClass (readClass rest) fun t left =>
      left ≤ rest.length ∧ t.isLook = false := by
  apply Tracks.read
  apply Tracks.positions
  intro opened hopened cursor
  apply Follows.step Steps.moveOne
  apply Follows.moveTo
  apply Tracks.moved
  apply (Tracks.accept '^').bind
  intro negated after hafter
  have hle : after.length ≤ rest.length := by
    cases negated with
    | true => exact Nat.le_of_lt (hafter.1 rfl)
    | false => exact Nat.le_of_eq (hafter.2 rfl)
  apply Tracks.get
  rintro c rfl
  apply Tracks.moved
  apply (tracks_scanClassItems hopened _ [] c.rest (Nat.lt_succ_self _)).bind
  intro ranges behind hbehind
  exact .pure ⟨Nat.le_trans hbehind hle, rfl⟩

end PatternText

end UnitRegex
