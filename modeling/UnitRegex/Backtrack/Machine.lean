import UnitRegex.Alphabet.CaseClasses
import UnitRegex.Alphabet.Classes
import UnitRegex.Alphabet.Text
import UnitRegex.Backtrack.Code
import UnitRegex.Search.SearchResult

/-!
The backtracking machine. It works on a stack of snapshots, of which the topmost is stepped and
replaced by the ways to go on. A snapshot that fails has none, so the next one below it is resumed
with the captures and registers it was made with.
-/

namespace UnitRegex

/-- Whether an anchor holds at a position. -/
def Anchor.holds (multiline : Bool) (text : Text) (cursor : Nat) : Anchor → Bool
  | .caret => cursor == 0 || (multiline && text[cursor - 1]?.any (·.isLineTerminator))
  | .dollar => cursor == text.size || (multiline && text[cursor]?.any (·.isLineTerminator))
  | .wordBoundary => borders
  | .notWordBoundary => !borders
where
  wordAt (i : Nat) : Bool := text[i]?.any (·.isWord)
  borders : Bool := (0 < cursor && wordAt (cursor - 1)) != wordAt cursor

/-- The unit that is read next in a direction, and the position behind it. -/
def Text.read (text : Text) (cursor : Nat) : Direction → Option (CodeUnit × Nat)
  | .forward => text[cursor]?.map (·, cursor + 1)
  | .backward => if cursor = 0 then none else text[cursor - 1]?.map (·, cursor - 1)

/-- What a back-reference compares of a unit. -/
def Flags.caseKey (flags : Flags) (c : CodeUnit) : CodeUnit :=
  if flags.ignoreCase then canonicalUnit flags.unicode c else c

/-- Whether the stretches of a length from two positions on look the same to a back-reference. -/
def Text.agree (text : Text) (flags : Flags) : Nat → Nat → Nat → Bool
  | _, _, 0 => true
  | i, j, length + 1 =>
    text[i]?.map flags.caseKey == text[j]?.map flags.caseKey &&
      text.agree flags (i + 1) (j + 1) length

/-- Where a back-reference ends that starts at a position. A group that is not set is empty. -/
def Text.readGroup (text : Text) (flags : Flags) (slots : Slots) (group cursor : Nat)
    (d : Direction) : Option Nat :=
  let start := slots.start group
  let stop := slots.stop group
  if start < 0 ∨ stop < 0 then some cursor
  else
    let length := (stop - start).toNat
    match d with
    | .forward =>
      if cursor + length ≤ text.size ∧ text.agree flags start.toNat cursor length then
        some (cursor + length)
      else none
    | .backward =>
      if length ≤ cursor ∧ text.agree flags start.toNat (cursor - length) length then
        some (cursor - length)
      else none

structure Program where
  code : Array Instruction
  /-- Number of registers. -/
  registers : Nat
  groupCount : Nat
  flags : Flags

structure Snapshot where
  /-- The next instruction. -/
  pc : Nat
  /-- The position in the text. -/
  cursor : Nat
  registers : Array Nat
  slots : Slots

namespace Snapshot

/-- Goes on with the instruction `offset` further. -/
def jump (s : Snapshot) (offset : Nat) : Snapshot := { s with pc := s.pc + offset }

def register (s : Snapshot) (r : Nat) : Nat := s.registers[r]?.getD 0

def setRegister (s : Snapshot) (r value : Nat) : Snapshot :=
  { s with registers := s.registers.setIfInBounds r value }

def capture (s : Snapshot) (group start stop : Nat) : Snapshot :=
  { s with slots := (s.slots.setStart group start).setStop group stop }

end Snapshot

/-- What becomes of a snapshot. -/
inductive Step where
  | accept
  /-- The ways to go on in order of preference. -/
  | next (ways : List Snapshot)
  /-- It depends on a look-around whose code comes next; `offset` leads behind that code. -/
  | look (negated : Bool) (offset : Nat)

namespace Program

/-- Executes one instruction. -/
def execute (p : Program) (text : Text) (s : Snapshot) : Instruction → Step
  | .read set d =>
    match text.read s.cursor d with
    | some (c, cursor) =>
      .next (if set.contains c then [{ s.jump 1 with cursor := cursor }] else [])
    | none => .next []
  | .split offset => .next [s.jump 1, s.jump offset]
  | .jump offset => .next [s.jump offset]
  | .mark r => .next [(s.setRegister r s.cursor).jump 1]
  | .capture group r .forward => .next [(s.capture group (s.register r) s.cursor).jump 1]
  | .capture group r .backward => .next [(s.capture group s.cursor (s.register r)).jump 1]
  | .unset lo hi => .next [{ s.jump 1 with slots := s.slots.unsetGroups lo hi }]
  | .anchor kind =>
    .next (if kind.holds p.flags.multiline text s.cursor then [s.jump 1] else [])
  | .look negated offset => .look negated offset
  | .backReference group d =>
    match text.readGroup p.flags s.slots group s.cursor d with
    | some cursor => .next [{ s.jump 1 with cursor := cursor }]
    | none => .next []
  | .loopInit counter => .next [(s.setRegister counter 0).jump 1]
  | .loopHead counter q offset =>
    let count := s.register counter
    if count < q.min then .next [s.jump 1]
    else if q.max.any (· ≤ count) then .next [s.jump offset]
    else .next (if q.greedy then [s.jump 1, s.jump offset] else [s.jump offset, s.jump 1])
  | .loopNext counter mark min offset =>
    let count := s.register counter
    if min ≤ count ∧ s.cursor = s.register mark then .next []
    else .next [{ s.setRegister counter (count + 1) with pc := s.pc - offset }]
  | .accept => .accept

def step (p : Program) (text : Text) (s : Snapshot) : Step :=
  match p.code[s.pc]? with
  | some inst => p.execute text s inst
  | none => .next []

/-- Nothing is captured yet, and all registers are zero. -/
def start (p : Program) (cursor : Nat) : Snapshot :=
  ⟨0, cursor, Array.replicate p.registers 0, Slots.unset p.groupCount⟩

/-- One snapshot can give rise to another, whatever captures a look-around leaves. -/
def Leads (p : Program) (text : Text) (t s : Snapshot) : Prop :=
  match p.step text s with
  | .accept => False
  | .next ways => t ∈ ways
  | .look _ offset => t = s.jump 1 ∨ ∃ slots, t = { s.jump offset with slots := slots }

/-- A snapshot behind which every run ends. -/
def Halts (p : Program) (text : Text) (s : Snapshot) : Prop := Acc (p.Leads text) s

/-- One stack can follow another: the topmost snapshot gives way to some it leads to, and what is
below stays or, for the run of a look-around, is put aside. -/
def Follows (p : Program) (text : Text) (after before : List Snapshot) : Prop :=
  ∃ s rest kept ways, before = s :: rest ∧ after = ways ++ kept ∧ (kept = rest ∨ kept = []) ∧
    ∀ t ∈ ways, p.Leads text t s

/-- A stack that holds only snapshots behind which every run ends. -/
abbrev HaltingStack (p : Program) (text : Text) : Type :=
  { stack : List Snapshot // ∀ s ∈ stack, p.Halts text s }

theorem acc_follows (p : Program) (text : Text) (stack : List Snapshot)
    (h : ∀ s ∈ stack, p.Halts text s) : Acc (p.Follows text) stack := by
  have below : ∀ s, p.Halts text s → ∀ rest, Acc (p.Follows text) rest →
      Acc (p.Follows text) (s :: rest) := by
    intro s hs
    induction hs with
    | intro s _ ih =>
      intro rest hrest
      refine ⟨_, ?_⟩
      rintro _ ⟨_, _, kept, ways, hbefore, rfl, hkept, hways⟩
      obtain ⟨rfl, rfl⟩ := List.cons.inj hbefore
      have hacc : Acc (p.Follows text) kept := by
        rcases hkept with rfl | rfl
        · exact hrest
        · refine ⟨_, ?_⟩
          rintro _ ⟨_, _, _, _, hnil, _⟩
          exact absurd hnil (by simp)
      induction ways with
      | nil => exact hacc
      | cons t ways ihw =>
        exact ih t (hways t (by simp)) _ (ihw fun u hu => hways u (by simp [hu]))
  induction stack with
  | nil =>
    refine ⟨_, ?_⟩
    rintro _ ⟨_, _, _, _, hnil, _⟩
    exact absurd hnil (by simp)
  | cons s rest ih =>
    exact below s (h s (by simp)) rest (ih fun t ht => h t (by simp [ht]))

instance (p : Program) (text : Text) : WellFoundedRelation (HaltingStack p text) where
  rel after before := p.Follows text after.val before.val
  wf := ⟨fun stack => InvImage.accessible _ (acc_follows p text stack.val stack.property)⟩

theorem leads_of_next {p : Program} {text : Text} {s t : Snapshot} {ways : List Snapshot}
    (h : p.step text s = .next ways) (ht : t ∈ ways) : p.Leads text t s := by
  simpa only [Leads, h] using ht

theorem leads_into_look {p : Program} {text : Text} {s : Snapshot} {negated : Bool} {offset : Nat}
    (h : p.step text s = .look negated offset) : p.Leads text (s.jump 1) s := by
  simp only [Leads, h, true_or]

theorem leads_behind_look {p : Program} {text : Text} {s : Snapshot} {negated : Bool}
    {offset : Nat} (h : p.step text s = .look negated offset) (slots : Slots) :
    p.Leads text { s.jump offset with slots := slots } s := by
  simp only [Leads, h]
  exact .inr ⟨slots, rfl⟩

theorem follows_append {p : Program} {text : Text} {s : Snapshot} {ways : List Snapshot}
    (h : ∀ t ∈ ways, p.Leads text t s) (rest : List Snapshot) :
    p.Follows text (ways ++ rest) (s :: rest) :=
  ⟨s, rest, rest, ways, rfl, rfl, .inl rfl, h⟩

theorem follows_alone {p : Program} {text : Text} {s t : Snapshot} (h : p.Leads text t s)
    (rest : List Snapshot) : p.Follows text [t] (s :: rest) :=
  ⟨s, rest, [], [t], rfl, rfl, .inr rfl, by simpa using h⟩

theorem follows_cons {p : Program} {text : Text} {s t : Snapshot} (h : p.Leads text t s)
    (rest : List Snapshot) : p.Follows text (t :: rest) (s :: rest) :=
  ⟨s, rest, rest, [t], rfl, rfl, .inl rfl, by simpa using h⟩

theorem follows_tail (p : Program) (text : Text) (s : Snapshot) (rest : List Snapshot) :
    p.Follows text rest (s :: rest) :=
  ⟨s, rest, rest, [], rfl, rfl, .inl rfl, by simp⟩

theorem halts_cons {p : Program} {text : Text} {s t : Snapshot} {rest : List Snapshot}
    (h : ∀ u ∈ s :: rest, p.Halts text u) (ht : p.Leads text t s) :
    ∀ u ∈ t :: rest, p.Halts text u := by
  intro u hu
  rcases List.mem_cons.mp hu with rfl | hu
  · exact (h s (by simp)).inv ht
  · exact h u (by simp [hu])

/-- The snapshot that accepts first. -/
def run (p : Program) (text : Text) (stack : List Snapshot)
    (h : ∀ s ∈ stack, p.Halts text s) : Option Snapshot :=
  match stack, h with
  | [], _ => none
  | s :: rest, h =>
    have hrest : ∀ t ∈ rest, p.Halts text t := fun t ht => h t (by simp [ht])
    match hstep : p.step text s with
    | .accept => some s
    | .next ways =>
      p.run text (ways ++ rest) fun t ht => by
        rcases List.mem_append.mp ht with ht | ht
        · exact (h s (by simp)).inv (leads_of_next hstep ht)
        · exact hrest t ht
    | .look negated offset =>
      let found := p.run text [s.jump 1] fun t ht => by
        obtain rfl := List.mem_singleton.mp ht
        exact (h s (by simp)).inv (leads_into_look hstep)
      if found.isSome = negated then p.run text rest hrest
      else
        let slots := (found.map (·.slots)).getD s.slots
        p.run text ({ s.jump offset with slots := slots } :: rest)
          (halts_cons h (leads_behind_look hstep slots))
termination_by (⟨stack, h⟩ : HaltingStack p text)
decreasing_by
  · exact follows_append (fun t ht => leads_of_next hstep ht) rest
  · exact follows_alone (leads_into_look hstep) rest
  · exact follows_tail p text s rest
  · exact follows_cons (leads_behind_look hstep _) rest

end Program

end UnitRegex
