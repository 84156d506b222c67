import UnitRegex.Pattern.Reader

/-!
The parentheses and the leaves of a pattern. In a text, a parenthesis counts if it is neither
escaped nor in a class; those that open a capture group are numbered from the left. In a tree, the
same numbers stand at the groups. What is spelled without parentheses leaves no trace in the outline
of a text.
-/

namespace UnitRegex

/-! ### Texts -/

/-- A parenthesis that is neither escaped nor in a class; an opening one with the characters behind
it. -/
inductive Paren where
  | opening (rest : List Char)
  | closing

def parens (inClass : Bool) : List Char → List Paren
  | [] => []
  | '\\' :: [] => []
  | '\\' :: _ :: rest => parens inClass rest
  | '[' :: rest => parens true rest
  | ']' :: rest => parens false rest
  | '(' :: rest => if inClass then parens inClass rest else .opening rest :: parens inClass rest
  | ')' :: rest => if inClass then parens inClass rest else .closing :: parens inClass rest
  | _ :: rest => parens inClass rest

/-- Whether a parenthesis in front of some characters opens a capture group. -/
def opensGroup : List Char → Bool
  | '?' :: '<' :: '=' :: _ => false
  | '?' :: '<' :: '!' :: _ => false
  | '?' :: '<' :: _ => true
  | '?' :: _ => false
  | _ => true

/-- Where a numbered capture group opens and closes. -/
inductive Bracket where
  | opens (group : Nat)
  | closes (group : Nat)
  deriving DecidableEq

def Bracket.opened? : Bracket → Option Nat
  | .opens n => some n
  | .closes _ => none

/-- The brackets of the capture groups among some parentheses, the first of which gets the number
`next`. The parentheses that are already open are `pending`, with their numbers if they capture. -/
def brackets : List (Option Nat) → Nat → List Paren → List Bracket
  | _, _, [] => []
  | pending, next, .opening rest :: ps =>
    if opensGroup rest then .opens next :: brackets (some next :: pending) (next + 1) ps
    else brackets (none :: pending) next ps
  | some n :: pending, next, .closing :: ps => .closes n :: brackets pending next ps
  | none :: pending, next, .closing :: ps => brackets pending next ps
  | [], next, .closing :: ps => brackets [] next ps

/-- A character that neither is a parenthesis nor hides one. -/
def Plain (c : Char) : Prop := c ∉ ['\\', '[', ']', '(', ')']

instance (c : Char) : Decidable (Plain c) := inferInstanceAs (Decidable (c ∉ _))

variable {inClass : Bool} {c : Char} {chars rest : List Char}

/-- The characters that `parens` looks at, one after the other. -/
theorem parens_cons (inClass : Bool) (c : Char) (rest : List Char) :
    parens inClass (c :: rest) =
      if c = '\\' then parens inClass rest.tail
      else if c = '[' then parens true rest
      else if c = ']' then parens false rest
      else if c = '(' then
        if inClass then parens inClass rest else .opening rest :: parens inClass rest
      else if c = ')' then
        if inClass then parens inClass rest else .closing :: parens inClass rest
      else parens inClass rest := by
  by_cases hslash : c = '\\'
  · subst hslash
    cases rest <;> simp [parens]
  · rw [if_neg hslash, parens.eq_def]
    split <;> simp_all

theorem parens_plain (h : Plain c) : parens inClass (c :: rest) = parens inClass rest := by
  simp only [Plain, List.mem_cons, List.not_mem_nil, or_false, not_or] at h
  simp [parens_cons, h]

/-- Outside a class, a closing bracket is a plain character. -/
theorem parens_outside (hslash : c ≠ '\\') (hopen : c ≠ '[') (hleft : c ≠ '(') (hright : c ≠ ')') :
    parens false (c :: rest) = parens false rest := by
  simp [parens_cons, hslash, hopen, hleft, hright]

/-- In a class, parentheses and opening brackets are plain characters. -/
theorem parens_inClass (hslash : c ≠ '\\') (hclose : c ≠ ']') :
    parens true (c :: rest) = parens true rest := by
  simp [parens_cons, hslash, hclose]

@[simp]
theorem parens_escape (c : Char) (rest : List Char) :
    parens inClass ('\\' :: c :: rest) = parens inClass rest := by
  simp [parens_cons]

@[simp]
theorem parens_opening (rest : List Char) :
    parens false ('(' :: rest) = .opening rest :: parens false rest := by
  simp [parens_cons]

@[simp]
theorem parens_closing (rest : List Char) :
    parens false (')' :: rest) = .closing :: parens false rest := by
  simp [parens_cons]

/-! ### What is spelled without parentheses -/

/-- A character is plain if it has a property that none of the others has. -/
theorem plain_of (p : Char → Prop) (h : p c)
    (hnone : ¬p '\\' ∧ ¬p '[' ∧ ¬p ']' ∧ ¬p '(' ∧ ¬p ')') : Plain c := by
  intro hc
  simp only [List.mem_cons, List.not_mem_nil, or_false] at hc
  rcases hc with rfl | rfl | rfl | rfl | rfl
  · exact hnone.1 h
  · exact hnone.2.1 h
  · exact hnone.2.2.1 h
  · exact hnone.2.2.2.1 h
  · exact hnone.2.2.2.2 h

theorem plain_of_digitValue? {base d : Nat} (h : digitValue? base c = some d) : Plain c :=
  plain_of (digitValue? base · = some d) h (by simp [digitValue?])

theorem parens_takeDigits (base : Nat) (chars : List Char) :
    parens inClass (takeDigits base chars).2 = parens inClass chars := by
  induction chars with
  | nil => rfl
  | cons c rest ih =>
    rw [takeDigits]
    split
    · rename_i hdigit
      rw [parens_plain (plain_of_digitValue? hdigit), ← ih]
    · rfl

theorem parens_readOctal (value count : Nat) (chars : List Char) :
    parens inClass (readOctal value count chars).2 = parens inClass chars := by
  induction count generalizing value chars with
  | zero => rw [readOctal]
  | succ count ih =>
    cases chars with
    | nil => rw [readOctal]
    | cons c rest =>
      rw [readOctal]
      split
      · rename_i hdigit
        split
        · rw [ih, parens_plain (plain_of_digitValue? hdigit)]
        · rfl
      · rfl

theorem parens_readHex? {value count n : Nat} (h : readHex? value count chars = some (n, rest)) :
    parens inClass rest = parens inClass chars := by
  induction count generalizing value chars with
  | zero =>
    obtain ⟨-, rfl⟩ := Prod.mk.inj (Option.some.inj h)
    rfl
  | succ count ih =>
    cases chars with
    | nil => cases h
    | cons c rest =>
      rw [readHex?] at h
      split at h
      · rename_i hdigit
        rw [parens_plain (plain_of_digitValue? hdigit), ih h]
      · cases h

theorem parens_readBraces? {bounds : Nat × Option Nat}
    (h : readBraces? chars = some (bounds, rest)) : parens inClass rest = parens inClass chars := by
  have hbrace (rest : List Char) : parens inClass ('}' :: rest) = parens inClass rest :=
    parens_plain (by decide)
  have hcomma (rest : List Char) : parens inClass (',' :: rest) = parens inClass rest :=
    parens_plain (by decide)
  rw [← parens_takeDigits 10 chars]
  unfold readBraces? at h
  split at h
  · cases h
  · rename_i hdigits
    obtain ⟨-, rfl⟩ := Prod.mk.inj (Option.some.inj h)
    rw [hdigits, hbrace]
  · rename_i hdigits
    obtain ⟨-, rfl⟩ := Prod.mk.inj (Option.some.inj h)
    rw [hdigits, hcomma, hbrace]
  · rename_i more _ _ hdigits
    rw [hdigits, hcomma, ← parens_takeDigits 10 more]
    split at h
    · cases h
    · rename_i hdigits'
      obtain ⟨-, rfl⟩ := Prod.mk.inj (Option.some.inj h)
      rw [hdigits', hbrace]
    · cases h
  · cases h

theorem plain_of_isNameContinuation (h : isNameContinuation c = true) : Plain c :=
  plain_of (isNameContinuation · = true) h (by decide)

theorem plain_of_isNameStart (h : isNameStart c = true) : Plain c :=
  plain_of_isNameContinuation (by simp [isNameContinuation, h])

/-- A name reaches up to the first `>`. -/
theorem takeName_eq_ok {front : List Char} {name : String}
    (h : takeName front chars = .ok (name, rest)) :
    parens inClass rest = parens inClass chars ∧
      name = String.ofList (front.reverse ++ chars.takeWhile (· != '>')) := by
  induction chars generalizing front with
  | nil => cases h
  | cons c more ih =>
    rw [takeName] at h
    split at h
    · rename_i hend
      obtain ⟨rfl, rfl⟩ := Prod.mk.inj (Except.ok.inj h)
      rw [hend.1]
      exact ⟨(parens_plain (by decide)).symm, by simp⟩
    · rename_i hend
      split at h
      · rename_i hname
        have hplain : Plain c := by
          rcases hname with hstart | ⟨-, hcontinues⟩
          · exact plain_of_isNameStart hstart
          · exact plain_of_isNameContinuation hcontinues
        have hinside : c ≠ '>' := by
          rintro rfl
          have hstart : isNameStart '>' = false := by decide
          simp_all
        obtain ⟨hparens, hname⟩ := ih h
        refine ⟨hparens.trans (parens_plain hplain).symm, ?_⟩
        simp [hname, hinside]
      · cases h

/-! ### The first pass -/

/-- What the first pass does at a parenthesis. -/
def GroupScan.meet (scan : GroupScan) : Paren → GroupScan
  | .opening rest => scan.note rest
  | .closing => scan

/-- The first pass sees the parentheses and nothing else. -/
theorem GroupScan.run_eq (scan : GroupScan) (inClass : Bool) (chars : List Char) :
    scan.run inClass chars = (parens inClass chars).foldl GroupScan.meet scan := by
  fun_induction GroupScan.run scan inClass chars with
  | case1 => rfl
  | case2 => rfl
  | case3 scan inClass c rest ih => rw [ih, parens_escape]
  | case4 scan inClass rest ih => simp [ih, parens_cons]
  | case5 scan inClass rest ih => simp [ih, parens_cons]
  | case6 scan rest ih => simp [ih, parens_cons]
  | case7 scan inClass rest hout ih => simp_all [GroupScan.meet]
  | case8 scan inClass c rest hending hescape hopen hclose hleft ih =>
    by_cases hright : c = ')'
    · cases inClass <;> simp [ih, hright, parens_cons, GroupScan.meet]
    · have hslash : c ≠ '\\' := by
        intro hc
        cases rest with
        | nil => exact hending hc rfl
        | cons d more => exact hescape d more hc rfl
      have hplain : Plain c := by
        simp only [Plain, List.mem_cons, List.not_mem_nil, or_false, not_or]
        exact ⟨hslash, hopen, hclose, hleft, hright⟩
      rw [ih, parens_plain hplain]

/-- A parenthesis opens a group without a name or one with a name, or none. Unless a question mark
stands behind it, it opens a group without a name. -/
theorem GroupScan.note_spec (scan : GroupScan) (rest : List Char) :
    (opensGroup rest = false ∧ scan.note rest = scan ∧ ∃ more, rest = '?' :: more) ∨
    (opensGroup rest = true ∧ scan.note rest = ⟨scan.count + 1, scan.names⟩ ∧
      ∀ more, rest ≠ '?' :: more) ∨
    (opensGroup rest = true ∧ ∃ more, rest = '?' :: '<' :: more ∧ scan.note rest =
      ⟨scan.count + 1,
        scan.names ++ [(String.ofList (more.takeWhile (· != '>')), scan.count + 1)]⟩) := by
  unfold GroupScan.note
  split <;> simp_all [opensGroup]

theorem GroupScan.note_of_not_opens (scan : GroupScan) (h : opensGroup rest = false) :
    scan.note rest = scan := by
  rcases scan.note_spec rest with ⟨-, hnote, -⟩ | ⟨hopens, -⟩ | ⟨hopens, -⟩
  · exact hnote
  · exact absurd (h.symm.trans hopens) (by decide)
  · exact absurd (h.symm.trans hopens) (by decide)

theorem GroupScan.note_unnamed (scan : GroupScan) (h : ∀ rest, chars ≠ '?' :: rest) :
    opensGroup chars = true ∧ scan.note chars = ⟨scan.count + 1, scan.names⟩ := by
  rcases scan.note_spec chars with ⟨-, -, more, hchars⟩ | ⟨hopens, hnote, -⟩ | ⟨-, more, hchars, -⟩
  · exact absurd hchars (h _)
  · exact ⟨hopens, hnote⟩
  · exact absurd hchars (h _)

theorem GroupScan.note_named (scan : GroupScan) (hahead : ∀ more, rest ≠ '=' :: more)
    (hnot : ∀ more, rest ≠ '!' :: more) :
    opensGroup ('?' :: '<' :: rest) = true ∧ scan.note ('?' :: '<' :: rest) =
      ⟨scan.count + 1,
        scan.names ++ [(String.ofList (rest.takeWhile (· != '>')), scan.count + 1)]⟩ := by
  have hopens : opensGroup ('?' :: '<' :: rest) = true := by
    rw [opensGroup]
    · exact hahead
    · exact hnot
  rcases scan.note_spec ('?' :: '<' :: rest) with ⟨hopens', -⟩ | ⟨-, -, h⟩ | ⟨-, more, hmore, hnote⟩
  · exact absurd (hopens'.symm.trans hopens) (by decide)
  · exact absurd rfl (h _)
  · obtain rfl : rest = more := by simpa using hmore
    exact ⟨hopens, hnote⟩

/-- The first pass counts the parentheses that open capture groups. -/
theorem GroupScan.count_note (scan : GroupScan) (rest : List Char) :
    (scan.note rest).count = if opensGroup rest then scan.count + 1 else scan.count := by
  rcases scan.note_spec rest with ⟨hopens, hnote, -⟩ | ⟨hopens, hnote, -⟩ | ⟨hopens, more, -, hnote⟩
  · simp [hopens, hnote]
  · simp [hopens, hnote]
  · simp [hopens, hnote]

/-- The names of a first pass belong to groups that it counts. -/
def GroupScan.Numbered (scan : GroupScan) : Prop :=
  ∀ entry ∈ scan.names, 1 ≤ entry.2 ∧ entry.2 ≤ scan.count

theorem GroupScan.Numbered.meet {scan : GroupScan} (h : scan.Numbered) (p : Paren) :
    (scan.meet p).Numbered := by
  have hcount : ∀ entry ∈ scan.names, 1 ≤ entry.2 ∧ entry.2 ≤ scan.count + 1 := by
    intro entry hentry
    exact ⟨(h entry hentry).1, Nat.le_succ_of_le (h entry hentry).2⟩
  cases p with
  | closing => exact h
  | opening rest =>
    rw [GroupScan.meet]
    rcases scan.note_spec rest with ⟨-, hnote, -⟩ | ⟨-, hnote, -⟩ | ⟨-, more, -, hnote⟩
    · rw [hnote]
      exact h
    · rw [hnote]
      exact hcount
    · rw [hnote]
      intro entry hentry
      rcases List.mem_append.mp hentry with hentry | hentry
      · exact hcount entry hentry
      · obtain rfl := List.mem_singleton.mp hentry
        exact ⟨Nat.succ_pos _, Nat.le_refl _⟩

theorem numbered_scanGroups (chars : List Char) : (scanGroups chars).Numbered := by
  have hrow (ps : List Paren) (scan : GroupScan) (h : scan.Numbered) :
      (ps.foldl GroupScan.meet scan).Numbered := by
    induction ps generalizing scan with
    | nil => exact h
    | cons p ps ih => exact ih _ (h.meet p)
  rw [scanGroups, GroupScan.run_eq]
  apply hrow
  intro entry hentry
  cases hentry

/-- Capture groups are numbered one after the other, in the order of their opening parentheses. -/
theorem opened_brackets (pending : List (Option Nat)) (next : Nat) (ps : List Paren)
    (scan : GroupScan) : ∃ k, (ps.foldl GroupScan.meet scan).count = scan.count + k ∧
      (brackets pending next ps).filterMap Bracket.opened? = List.range' next k := by
  induction ps generalizing pending next scan with
  | nil => exact ⟨0, rfl, by simp [brackets]⟩
  | cons p ps ih =>
    cases p with
    | closing =>
      rcases pending with _ | ⟨_ | n, pending⟩
      · exact ih [] next scan
      · exact ih pending next scan
      · exact ih pending next scan
    | opening rest =>
      have hcount := scan.count_note rest
      rw [List.foldl_cons, brackets]
      by_cases hopens : opensGroup rest = true
      · obtain ⟨k, hfinal, hrow⟩ := ih (some next :: pending) (next + 1) (scan.note rest)
        rw [if_pos hopens] at hcount ⊢
        refine ⟨k + 1, ?_, ?_⟩
        · rw [GroupScan.meet, hfinal, hcount, Nat.add_assoc, Nat.add_comm 1]
        · rw [List.filterMap_cons_some (f := Bracket.opened?) rfl, hrow, List.range'_succ]
      · rw [if_neg hopens] at hcount ⊢
        obtain ⟨k, hfinal, hrow⟩ := ih (none :: pending) next (scan.note rest)
        exact ⟨k, by rw [GroupScan.meet, hfinal, hcount], hrow⟩

/-! ### Trees -/

mutual

/-- The brackets of the capture groups of a term. -/
def Term.brackets : Term → List Bracket
  | .unit _ | .anchor _ | .backReference _ => []
  | .look _ _ body => body.brackets
  | .group none _ body => body.brackets
  | .group (some n) _ body => .opens n :: (body.brackets ++ [.closes n])

def Branch.brackets : Branch → List Bracket
  | .nil => []
  | .cons t rest => t.brackets ++ rest.brackets

def Choice.brackets : Choice → List Bracket
  | .one b => b.brackets
  | .more b rest => b.brackets ++ rest.brackets

end

/-- A term without terms below it. -/
inductive Leaf where
  | unit (set : CharSet)
  | anchor (kind : Anchor)
  | backReference (group : Nat)

mutual

/-- The leaves of a term from left to right. -/
def Term.leaves : Term → List Leaf
  | .unit set => [.unit set]
  | .anchor kind => [.anchor kind]
  | .backReference n => [.backReference n]
  | .look _ _ body | .group _ _ body => body.leaves

def Branch.leaves : Branch → List Leaf
  | .nil => []
  | .cons t rest => t.leaves ++ rest.leaves

def Choice.leaves : Choice → List Leaf
  | .one b => b.leaves
  | .more b rest => b.leaves ++ rest.leaves

end

theorem Branch.brackets_ofList_concat (l : List Term) (t : Term) :
    (Branch.ofList (l ++ [t])).brackets = (Branch.ofList l).brackets ++ t.brackets := by
  induction l with
  | nil => exact List.append_nil _
  | cons u rest ih =>
    simp only [List.cons_append, Branch.ofList, Branch.brackets, ih, List.append_assoc]

theorem Branch.leaves_ofList_concat (l : List Term) (t : Term) :
    (Branch.ofList (l ++ [t])).leaves = (Branch.ofList l).leaves ++ t.leaves := by
  induction l with
  | nil => exact List.append_nil _
  | cons u rest ih =>
    simp only [List.cons_append, Branch.ofList, Branch.leaves, ih, List.append_assoc]

end UnitRegex
