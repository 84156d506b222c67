import UnitRegex.Alphabet.CaseClasses
import UnitRegex.Alphabet.Classes
import UnitRegex.Alphabet.Text
import UnitRegex.Pattern.GroupScan
import UnitRegex.Pattern.NameChar
import UnitRegex.Pattern.Numeral
import UnitRegex.Pattern.Shape
import UnitRegex.Source.Literal

/-!
Reading a pattern into its tree by recursive descent. Groups may nest to a fixed depth, which is
what the recursion runs on; within a group every term consumes at least one character.
-/

namespace UnitRegex

/-- What stays fixed while one pattern is read. -/
structure Setting where
  flags : Flags
  length : Nat
  groups : GroupScan

/-- The characters still to read, and what has been collected on the way. -/
structure Cursor where
  rest : List Char
  nextGroup : Nat := 1
  named : List (String × Nat) := []
  context : Nat := 0

/-- A reader moves the cursor or stops with a fault and the position of the fault. -/
abbrev Reader := ReaderT Setting (StateT Cursor (Except (Fault × Nat)))

namespace Reader

def position : Reader Nat := return (← read).length - (← get).rest.length

def fail {α : Type} (fault : Fault) : Reader α := do
  let at_ ← position
  throw (fault, at_)

def moveTo (rest : List Char) : Reader Unit := modify fun c => { c with rest := rest }

/-- Consumes one given character, if it is next. -/
def accept (c : Char) : Reader Bool := do
  match (← get).rest with
  | d :: rest => if c = d then moveTo rest; return true else return false
  | [] => return false

def widenContext (units : Nat) : Reader Unit :=
  modify fun c => { c with context := max c.context units }

def newGroup : Reader Nat := do
  let n := (← get).nextGroup
  modify fun c => { c with nextGroup := n + 1 }
  return n

end Reader

open Reader

/-- A set as a term, closed under case equivalence when case is ignored. -/
def Flags.unitTerm (f : Flags) (set : CharSet) : Term :=
  .unit (if f.ignoreCase then set.caseClosure f.unicode else set)

/-- A literal code point. One above U+FFFF becomes a group around its surrogate pair. -/
def Flags.literalTerm (f : Flags) (n : Nat) : Term :=
  match encodeCodePoint n with
  | [c] => f.unitTerm (CharSet.single c)
  | units =>
    .group none none (.one (Branch.ofList (units.map fun c => f.unitTerm (CharSet.single c))))

/-- What an escape denotes: one unit, a predefined set, or a code point above U+FFFF. -/
inductive Atom where
  | unit (c : CodeUnit)
  | set (s : CharSet)
  | astral (n : Nat)

def Atom.ofCodePoint (n : Nat) : Atom := if n < 0x10000 then .unit (UInt16.ofNat n) else .astral n

/-- The characters that may be escaped by a backslash in unicode mode. -/
def reservedCharacters : List Char := "^$\\.*+?()[]\x7b\x7d|/".toList

/-- The escape `u` with four digits, or with braces or a surrogate pair in unicode mode. -/
def readUnicodeEscape : Reader (Option Nat) := do
  let unicode := (← read).flags.unicode
  match unicode, (← get).rest with
  | true, '{' :: more =>
    let (digits, rest) := takeDigits 16 more
    moveTo rest
    if digits.isEmpty then fail .invalidUnicodeEscape
    else if !(← accept '}') then fail .invalidUnicodeEscape
    else
      let n := numberUpTo 0x110000 16 digits
      if 0x10FFFF < n then fail .invalidUnicodeEscape else return some n
  | _, chars =>
    match readHex? 0 4 chars with
    | none => return none
    | some (lead, rest) =>
      moveTo rest
      match unicode && 0xD800 ≤ lead && lead < 0xDC00, rest with
      | true, '\\' :: 'u' :: more =>
        match readHex? 0 4 more with
        | some (trail, rest) =>
          if 0xDC00 ≤ trail && trail < 0xE000 then
            moveTo rest
            return some (0x10000 + (lead - 0xD800) * 0x400 + (trail - 0xDC00))
          else return some lead
        | none => return some lead
      | _, _ => return some lead

/-- An escape that means the same inside and outside a class. The backslash is already consumed. -/
def readCharacterEscape (inClass : Bool) : Reader Atom := do
  let unicode := (← read).flags.unicode
  match (← get).rest with
  | [] => fail .trailingBackslash
  | c :: rest =>
    moveTo rest
    match c with
    | 'd' => return .set .digits
    | 'D' => return .set CharSet.digits.complement
    | 'w' => return .set .word
    | 'W' => return .set CharSet.word.complement
    | 's' => return .set .space
    | 'S' => return .set CharSet.space.complement
    | 't' => return .unit 0x09
    | 'n' => return .unit 0x0A
    | 'v' => return .unit 0x0B
    | 'f' => return .unit 0x0C
    | 'r' => return .unit 0x0D
    | 'c' =>
      match rest with
      | l :: after =>
        if ('a' ≤ l ∧ l ≤ 'z') ∨ ('A' ≤ l ∧ l ≤ 'Z') then
          moveTo after
          return .unit (UInt16.ofNat (l.toNat % 32))
        else if unicode then fail .invalidUnicodeEscape
        else
          -- Without a control letter the backslash stands for itself and the `c` is read again.
          moveTo (c :: rest)
          return .unit 0x5C
      | [] =>
        if unicode then fail .invalidUnicodeEscape
        else
          moveTo (c :: rest)
          return .unit 0x5C
    | 'x' =>
      match readHex? 0 2 rest with
      | some (n, after) =>
        moveTo after
        return .unit (UInt16.ofNat n)
      | none => if unicode then fail .invalidEscape else return .unit 0x78
    | 'u' =>
      match ← readUnicodeEscape with
      | some n => return .ofCodePoint n
      | none => if unicode then fail .invalidUnicodeEscape else return .unit 0x75
    | _ =>
      if inClass && c == 'b' then return .unit 0x08
      else if inClass && c == '-' then return .unit 0x2D
      else if c == '0' && !(rest.head?.any Char.isDigit) then return .unit 0
      else if c == '0' && !unicode then
        let (n, after) := readOctal 0 3 (c :: rest)
        moveTo after
        return .unit (UInt16.ofNat n)
      else if unicode then
        if reservedCharacters.contains c then return .ofCodePoint c.toNat else fail .invalidEscape
      else return .ofCodePoint c.toNat

/-- Splits off a group name and the `>` behind it; on failure gives what follows the character that
cannot belong to it. -/
def takeName (name : List Char) : List Char → Except (List Char) (String × List Char)
  | [] => .error []
  | c :: rest =>
    if c = '>' ∧ name ≠ [] then .ok (String.ofList name.reverse, rest)
    else if isNameStart c ∨ (name ≠ [] ∧ isNameContinuation c) then takeName (c :: name) rest
    else .error rest

def readGroupName : Reader String := do
  match takeName [] (← get).rest with
  | .ok (name, rest) =>
    moveTo rest
    return name
  | .error rest =>
    moveTo rest
    fail .invalidGroupName

/-- The digits of a back-reference or of an octal escape that starts with a digit above zero. -/
def readDecimalEscape (chars : List Char) : Reader Term := do
  let s ← read
  let (digits, rest) := takeDigits 10 chars
  let n := digits.foldl (fun value d => value * 10 + d) 0
  if n ≤ s.groups.count then
    moveTo rest
    return .backReference n
  else if s.flags.unicode then
    moveTo rest
    fail .invalidEscape
  else
    match chars with
    | c :: after =>
      if '8' ≤ c then
        moveTo after
        return s.flags.literalTerm c.toNat
      else
        let (value, after) := readOctal 0 3 chars
        moveTo after
        return s.flags.literalTerm value
    | [] => fail .trailingBackslash

def readNamedReference (chars : List Char) : Reader Term := do
  moveTo chars
  if !(← accept '<') then fail .invalidNamedReference
  else
    let name ← readGroupName
    match (← read).groups.names.find? (·.1 == name) with
    | some (_, n) => return .backReference n
    | none => fail .unknownGroupName

/-- An escape outside a class. The backslash is already consumed. -/
def readEscape : Reader Term := do
  let s ← read
  match (← get).rest with
  | [] => fail .trailingBackslash
  | c :: rest =>
    if '1' ≤ c ∧ c ≤ '9' then readDecimalEscape (c :: rest)
    else if c = 'k' ∧ (s.flags.unicode ∨ s.groups.names ≠ []) then readNamedReference rest
    else
      match ← readCharacterEscape false with
      | .set set => return s.flags.unitTerm set
      | .unit u => return s.flags.unitTerm (CharSet.single u)
      | .astral n => return s.flags.literalTerm n

/-- The intervals an atom contributes to a class. -/
def Atom.intervals : Atom → List Interval
  | .unit c => [Interval.single c]
  | .set s => s.intervals
  | .astral _ => []

def readClassEscape : Reader Atom := do
  let unicode := (← read).flags.unicode
  let chars := (← get).rest
  let digit := chars.head?.filter fun c => '1' ≤ c ∧ c ≤ '9'
  match digit with
  | some d =>
    if unicode then fail .invalidClassEscape
    else if '8' ≤ d then
      moveTo chars.tail
      return .ofCodePoint d.toNat
    else
      let (value, after) := readOctal 0 3 chars
      moveTo after
      return .unit (UInt16.ofNat value)
  | none =>
    if unicode && chars.head? == some 'B' then fail .invalidClassEscape
    else
      match ← readCharacterEscape true with
      | .astral _ => fail .astralInClass
      | atom => return atom

def readClassAtom : Reader Atom := do
  match (← get).rest with
  | [] => fail .unterminatedClass
  | c :: rest =>
    if c = '\\' then
      moveTo rest
      readClassEscape
    else if 0xFFFF < c.toNat then fail .astralInClass
    else
      moveTo rest
      return .unit (UInt16.ofNat c.toNat)

/-- Whether a range follows: a dash that is not the last character of the class. -/
def startsRange : List Char → Bool
  | '-' :: ']' :: _ => false
  | '-' :: _ :: _ => true
  | _ => false

/-- The items of a class up to its closing bracket. `opened` is the position of the opening one. -/
def readClassItems (opened : Nat) : Nat → List Interval → Reader (List Interval)
  | 0, _ => throw (.unterminatedClass, opened)
  | fuel + 1, ranges => do
    match (← get).rest with
    | [] => throw (.unterminatedClass, opened)
    | ']' :: rest =>
      moveTo rest
      return ranges
    | _ =>
      let low ← readClassAtom
      if !startsRange (← get).rest then readClassItems opened fuel (ranges ++ low.intervals)
      else
        discard <| accept '-'
        let high ← readClassAtom
        match low, high with
        | .unit a, .unit b =>
          if b < a then fail .classOutOfOrder
          else readClassItems opened fuel (ranges ++ [Interval.ofEnds a b])
        | _, _ =>
          if (← read).flags.unicode then fail .invalidClass
          else
            readClassItems opened fuel
              (ranges ++ low.intervals ++ [Interval.single 0x2D] ++ high.intervals)

def readClass (rest : List Char) : Reader Term := do
  let flags := (← read).flags
  let opened ← position
  moveTo rest
  let negated ← accept '^'
  let ranges ← readClassItems opened ((← get).rest.length + 1) []
  let set := CharSet.ofIntervals ranges
  let set := if flags.ignoreCase then set.caseClosure flags.unicode else set
  return .unit (if negated then set.complement else set)

def startsQuantifier : List Char → Bool
  | '*' :: _ | '+' :: _ | '?' :: _ => true
  | '{' :: rest => (readBraces? rest).isSome
  | _ => false

/-- The bounds of a quantifier, if there is one. -/
def readBounds : Reader (Option (Nat × Option Nat)) := do
  match (← get).rest with
  | '*' :: rest => do moveTo rest; return some (0, none)
  | '+' :: rest => do moveTo rest; return some (1, none)
  | '?' :: rest => do moveTo rest; return some (0, some 1)
  | '{' :: rest =>
    match readBraces? rest with
    | some ((low, high), after) =>
      if high.any (· < low) then fail .quantifierOutOfOrder
      else
        moveTo after
        return some (low, high)
    | none => if (← read).flags.unicode then fail .incompleteQuantifier else return none
  | _ => return none

def readQuantifier : Reader (Option Quantifier) := do
  match ← readBounds with
  | none => return none
  | some (low, high) =>
    let lazy ← accept '?'
    return some ⟨low, high, !lazy⟩

/-- Puts a quantifier on a group that has none, and on a new group around anything else. -/
def Term.repeated (q : Quantifier) : Term → Term
  | .group capture none body => .group capture (some q) body
  | t => .group none (some q) (.one (.cons t .nil))

def Term.isLook : Term → Bool
  | .look _ _ _ => true
  | _ => false

def Term.isLookBehind : Term → Bool
  | .look true _ _ => true
  | _ => false

/-- One atom without its quantifier; `group` reads what starts with a parenthesis. -/
def readAtom (group : Reader Term) : Reader Term := do
  let flags := (← read).flags
  match (← get).rest with
  | '(' :: _ => group
  | '[' :: rest => readClass rest
  | '\\' :: rest =>
    moveTo rest
    readEscape
  | '.' :: rest =>
    moveTo rest
    return .unit (if flags.dotAll then .full else CharSet.lineTerminators.complement)
  | '*' :: _ | '+' :: _ | '?' :: _ => fail .nothingToRepeat
  | c :: rest =>
    if c == '{' && (readBraces? rest).isSome then fail .nothingToRepeat
    else if flags.unicode && (c == '{' || c == '}' || c == ']') then fail .loneQuantifierBracket
    else
      moveTo rest
      return flags.literalTerm c.toNat
  | [] => fail .unexpectedEnd

def readAnchor (kind : Anchor) (rest : List Char) : Reader Term := do
  moveTo rest
  if kind = .caret && (← read).flags.multiline then widenContext 1
  if startsQuantifier rest then fail .nothingToRepeat
  else return .anchor kind

/-- An assertion, or an atom with its quantifier. -/
def readTerm (group : Reader Term) : Reader Term := do
  match (← get).rest with
  | '^' :: rest => readAnchor .caret rest
  | '$' :: rest => readAnchor .dollar rest
  | '\\' :: 'b' :: rest => readAnchor .wordBoundary rest
  | '\\' :: 'B' :: rest => readAnchor .notWordBoundary rest
  | _ =>
    let atom ← readAtom group
    match ← readQuantifier with
    | none => return atom
    | some q =>
      if atom.isLookBehind || ((← read).flags.unicode && atom.isLook) then fail .nothingToRepeat
      else return atom.repeated q

/-- The terms up to a bar, a closing parenthesis or the end. The recursion runs on the characters
ahead, of which every term takes at least one. -/
def readTerms (group : Reader Term) : List Char → List Term → Reader Branch
  | [], terms => return Branch.ofList terms.reverse
  | _ :: ahead, terms => do
    match (← get).rest with
    | [] | '|' :: _ | ')' :: _ => return Branch.ofList terms.reverse
    | _ =>
      let t ← readTerm group
      readTerms group ahead (t :: terms)

/-- Branches separated by bars. The recursion runs on the characters ahead, of which every branch
takes its bar; one more stands for the bar that the first branch does not have. -/
def readBranches (group : Reader Term) : List Char → Reader Choice
  | [] => return .one .nil
  | _ :: ahead => do
    let branch ← readTerms group (← get).rest []
    if ← accept '|' then return .more branch (← readBranches group ahead)
    else return .one branch

def readChoice (group : Reader Term) : Reader Choice := do
  readBranches group ('|' :: (← get).rest)

def readLook (choice : Reader Choice) (behind negated : Bool) : Reader Term := do
  let body ← choice
  if behind then
    match body.soleSequence? with
    | some sets => widenContext sets.length
    | none => pure ()
  return .look behind negated body

/-- What stands between a pair of parentheses; the opening one is already consumed. -/
def readGroupBody (choice : Reader Choice) : Reader Term := do
  match (← get).rest with
  | '?' :: ':' :: rest => do moveTo rest; return .group none none (← choice)
  | '?' :: '=' :: rest => do moveTo rest; readLook choice false false
  | '?' :: '!' :: rest => do moveTo rest; readLook choice false true
  | '?' :: '<' :: '=' :: rest => do moveTo rest; readLook choice true false
  | '?' :: '<' :: '!' :: rest => do moveTo rest; readLook choice true true
  | '?' :: '<' :: rest =>
    moveTo rest
    let name ← readGroupName
    if (← get).named.any (·.1 == name) then fail .duplicateGroupName
    else
      let n ← newGroup
      modify fun c => { c with named := c.named ++ [(name, n)] }
      return .group (some n) none (← choice)
  | '?' :: rest =>
    moveTo rest.tail
    fail .invalidGroup
  | _ =>
    let n ← newGroup
    return .group (some n) none (← choice)

/-- Reads a parenthesized term in which `depth - 1` more parentheses may be open at a time. -/
def readGroup : Nat → Reader Term
  | 0 => fail .tooDeeplyNested
  | depth + 1 => do
    let opening := (← get).rest
    discard <| accept '('
    let t ← readGroupBody (readChoice (readGroup depth))
    if ← accept ')' then return t
    else throw (.unterminatedGroup, (← read).length - opening.length)

/-- The greatest number of parentheses that may be open at a time. -/
def nestingLimit : Nat := 256

def readPattern : Reader Choice := do
  let body ← readChoice (readGroup nestingLimit)
  if (← get).rest.isEmpty then return body else fail .unmatchedParenthesis

def Source.parse (s : Source) : Except SyntaxError Pattern :=
  let chars := s.pattern.toList
  let setting : Setting := ⟨s.flags, chars.length, scanGroups chars⟩
  match (readPattern.run setting).run { rest := chars } with
  | .error (fault, position) => .error ⟨s.pattern, fault, position⟩
  | .ok (body, cursor) =>
    .ok
      { body := body
        flags := s.flags
        groupCount := setting.groups.count + 1
        groupNames := cursor.named
        context := cursor.context }

end UnitRegex
