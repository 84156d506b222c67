import UnitRegex.Automaton.Counts

/-!
Look-aheads that are followed while the text behind them is read. All branches of one are tried at
the same time, and its verdict falls as soon as a branch is complete or none is left. For
look-behinds it is followed how far the text just read matches their bodies: all matches of all
bodies in lockstep, also those that overlap.
-/

namespace UnitRegex

/-- A look-ahead that a thread has passed but not yet seen through. -/
structure OpenLook where
  body : UInt16
  negated : Bool
  /-- Units read since it was passed. -/
  read : UInt16
  /-- One bit for every branch that still matches. -/
  alive : UInt32
  deriving DecidableEq, Hashable

inductive LookVerdict where
  | holds
  | fails
  | undecided (look : OpenLook)
  deriving DecidableEq

def LookVerdict.ofFound (negated found : Bool) : LookVerdict :=
  if found != negated then .holds else .fails

theorem LookVerdict.ofFound_ne_undecided (negated found : Bool) (look : OpenLook) :
    ofFound negated found ≠ .undecided look := by
  unfold ofFound
  split <;> simp

/-- The branches of a look-ahead body. -/
def Nfa.branches (nfa : Nfa) (body : Nat) : List (List CharSet) := nfa.lookAheads[body]?.getD []

namespace OpenLook

/-- A strict order, field by field. -/
def before (p q : OpenLook) : Bool :=
  if p.body ≠ q.body then p.body < q.body
  else if p.negated ≠ q.negated then q.negated
  else if p.read ≠ q.read then p.read < q.read
  else p.alive < q.alive

/-- Inserts into a sorted list, without doubling. -/
def insertInto (p : OpenLook) : List OpenLook → List OpenLook
  | [] => [p]
  | q :: rest =>
    if p = q then q :: rest
    else if p.before q then p :: q :: rest
    else q :: p.insertInto rest

theorem before_irrefl (p : OpenLook) : p.before p = false := by
  simp [before]

theorem before_trans {p q r : OpenLook} (hpq : p.before q) (hqr : q.before r) : p.before r := by
  unfold before at *
  grind

section

variable (p : OpenLook) {q : OpenLook} {looks : List OpenLook}

theorem insertInto_eq_or (looks : List OpenLook) :
    p.insertInto looks = looks ∨ (p.insertInto looks).length = looks.length + 1 := by
  induction looks with
  | nil => exact .inr rfl
  | cons q rest ih =>
    unfold insertInto
    split
    · exact .inl rfl
    · split
      · exact .inr rfl
      · exact ih.imp (congrArg (q :: ·)) (congrArg (· + 1))

theorem insertInto_insertInto (looks : List OpenLook) :
    p.insertInto (p.insertInto looks) = p.insertInto looks := by
  induction looks with
  | nil => simp [insertInto]
  | cons q rest ih => grind [insertInto, before_irrefl]

theorem insertInto_of_eq (h : q.insertInto looks = looks) :
    q.insertInto (p.insertInto looks) = p.insertInto looks := by
  induction looks with
  | nil => simp [insertInto] at h
  | cons r rest ih => grind [insertInto, before_irrefl, before_trans]

end

theorem finitely : Finitely fun _ : OpenLook => True := by
  have hparts := ((Finitely.lt UInt16.size).prod (.prod .bool (.prod (.lt UInt16.size)
    (.lt UInt32.size)))).image fun parts =>
      (⟨.ofNat parts.1, parts.2.1, .ofNat parts.2.2.1, .ofNat parts.2.2.2⟩ : OpenLook)
  refine hparts.mono fun p _ => ⟨(p.body.toNat, p.negated, p.read.toNat, p.alive.toNat),
    ⟨p.body.toNat_lt, trivial, p.read.toNat_lt, p.alive.toNat_lt⟩, ?_⟩
  simp

/-- The length of a list and the number of insertions that would make it longer. -/
def spread (all looks : List OpenLook) : Nat :=
  looks.length + all.countP fun p => p.insertInto looks ≠ looks

theorem spread_insertInto_le {all : List OpenLook} (hall : ∀ p, p ∈ all) (p : OpenLook)
    (looks : List OpenLook) : spread all (p.insertInto looks) ≤ spread all looks := by
  rcases p.insertInto_eq_or looks with heq | hlength
  · exact Nat.le_of_eq (congrArg (spread all) heq)
  · have hlt : (all.countP fun q => q.insertInto (p.insertInto looks) ≠ p.insertInto looks) <
        all.countP fun q => q.insertInto looks ≠ looks := by
      refine countP_lt_countP ?_ (hall p) ?_ ?_
      · simp only [decide_eq_true_eq]
        exact fun q _ hq heq => hq (insertInto_of_eq p heq)
      · simpa using insertInto_insertInto p looks
      · refine decide_eq_true fun heq => ?_
        rw [heq] at hlength
        omega
    unfold spread
    omega

/-- Insertions lead to finitely many lists. -/
theorem exists_closed (given : List (List OpenLook)) :
    ∃ reached : List OpenLook → Prop, Finitely reached ∧ (∀ looks ∈ given, reached looks) ∧
      ∀ looks (p : OpenLook), reached looks → reached (p.insertInto looks) := by
  obtain ⟨all, hall⟩ := finitely
  obtain ⟨bound, hbound⟩ := exists_forall_le (given.map (spread all))
  refine ⟨fun looks => spread all looks ≤ bound, ?_, fun looks hlooks => ?_,
    fun looks p hlooks => ?_⟩
  · refine (finitely.lists bound).mono fun looks hlooks => ⟨?_, fun _ _ => trivial⟩
    exact Nat.le_trans (Nat.le_add_right _ _) hlooks
  · exact hbound _ (List.mem_map_of_mem hlooks)
  · exact Nat.le_trans (spread_insertInto_le (fun q => hall q trivial) p looks) hlooks

/-- The bit of a branch in a mask. -/
def bit (branch : Nat) : UInt32 := 1 <<< branch.toUInt32

def maskOf (branches : List Nat) : UInt32 := branches.foldl (fun mask b => mask ||| bit b) 0

/-- The verdict before any unit is read. At the end of the input only an empty branch is found. -/
def start (nfa : Nfa) (body : Nat) (negated atEnd : Bool) : LookVerdict :=
  let branches := nfa.branches body
  if branches.any List.isEmpty then .ofFound negated true
  else if atEnd then .ofFound negated false
  else .undecided ⟨UInt16.ofNat body, negated, 0, maskOf (List.range branches.length)⟩

theorem read_of_start {nfa : Nfa} {body : Nat} {negated atEnd : Bool} {look : OpenLook}
    (h : start nfa body negated atEnd = .undecided look) : look.read = 0 := by
  unfold start at h
  dsimp only at h
  split at h
  · exact absurd h (LookVerdict.ofFound_ne_undecided _ _ _)
  · split at h
    · exact absurd h (LookVerdict.ofFound_ne_undecided _ _ _)
    · obtain rfl := LookVerdict.undecided.inj h
      rfl

/-- The live branches, each with its number. -/
def live (nfa : Nfa) (p : OpenLook) : List (List CharSet × Nat) :=
  (nfa.branches p.body.toNat).zipIdx.filter fun b => p.alive &&& bit b.2 != 0

/-- The sets that the next unit is tested against. -/
def nextSets (nfa : Nfa) (p : OpenLook) : List CharSet :=
  (p.live nfa).filterMap fun b => b.1[p.read.toNat]?

/-- The verdict after one more unit. -/
def after (nfa : Nfa) (p : OpenLook) (u : CodeUnit) : LookVerdict :=
  let survivors := (p.live nfa).filter fun b => b.1[p.read.toNat]?.any (·.contains u)
  let found := survivors.any fun b => b.1.length = p.read.toNat + 1
  if found || survivors.isEmpty then .ofFound p.negated found
  else .undecided { p with read := p.read + 1, alive := maskOf (survivors.map (·.2)) }

/-- The look-aheads still open after one more unit, unless one of them failed. -/
def allAfter? (nfa : Nfa) (u : CodeUnit) : List OpenLook → Option (List OpenLook)
  | [] => some []
  | p :: rest =>
    match p.after nfa u, allAfter? nfa u rest with
    | .fails, _ => none
    | _, none => none
    | .holds, some looks => some looks
    | .undecided q, some looks => some (q.insertInto looks)

end OpenLook

/-- A body and a number of its sets that the last units match, for each such pair, sorted. -/
abbrev Progress := List (UInt16 × UInt16)

namespace Progress

def le (a b : UInt16 × UInt16) : Bool := a.1 < b.1 || (a.1 == b.1 && a.2 ≤ b.2)

/-- What one body has matched after one more unit, which may begin a match or continue one. -/
def bodyAfter (progress : Progress) (u : CodeUnit) (sets : List CharSet) (body : Nat) : Progress :=
  let id := UInt16.ofNat body
  let reached := 0 :: (progress.filter (·.1 == id)).map (·.2.toNat)
  (reached.filter fun n => sets[n]?.any (·.contains u)).map fun n => (id, UInt16.ofNat (n + 1))

def after (nfa : Nfa) (progress : Progress) (u : CodeUnit) : Progress :=
  ((nfa.lookBehinds.zipIdx.flatMap fun b => progress.bodyAfter u b.1 b.2).mergeSort le).eraseReps

/-- Whether the text just read ends with a match of a whole body. -/
def complete (nfa : Nfa) (progress : Progress) (body : Nat) : Bool :=
  let length := (nfa.lookBehinds[body]?.getD []).length
  length == 0 || progress.contains (UInt16.ofNat body, UInt16.ofNat length)

end Progress

end UnitRegex
