import UnitRegex.Pattern.Reader

/-!
Reading a pattern by position. The characters stand in an array, and the scanner keeps the index of
the next one, which it moves on, puts back or saves. How many parentheses are open is counted on the
way. There is no result where a loop does not end, where the position would leave the pattern, and
where a number would be taken from a smaller one.
-/

namespace UnitRegex

/-- Where a scanner is, and what it has collected on the way. -/
structure Spot where
  pos : Nat := 0
  /-- Number of parentheses that are open. -/
  depth : Nat := 0
  nextGroup : Nat := 1
  named : List (String × Nat) := []
  context : Nat := 0

/-- A scanner moves the spot or stops with a fault and the position of the fault. -/
abbrev Scan := StateT Spot (ExceptT (Fault × Nat) Option)

namespace Scan

def crash {α : Type} : Scan α := fun _ => ExceptT.mk none

def ofOption {α : Type} : Option α → Scan α
  | some a => pure a
  | none => crash

def minus (a b : Nat) : Scan Nat := if b ≤ a then return a - b else crash

def position : Scan Nat := return (← get).pos

def fail {α : Type} (fault : Fault) : Scan α := do
  let at_ ← position
  throw (fault, at_)

def widenContext (units : Nat) : Scan Unit :=
  modify fun x => { x with context := max x.context units }

def newGroup : Scan Nat := do
  let n := (← get).nextGroup
  modify fun x => { x with nextGroup := n + 1 }
  return n

/-- One more parenthesis is open. -/
def enter : Scan Unit := do
  if (← get).depth = nestingLimit then fail .tooDeeplyNested
  else modify fun x => { x with depth := x.depth + 1 }

/-- One parenthesis less is open. -/
def leave : Scan Unit := do
  let depth ← minus (← get).depth 1
  modify fun x => { x with depth := depth }

end Scan

/-! ### The first pass -/

/-- The first pass from an index on. There is no result if it indexes or slices beyond the end. -/
def GroupScan.runFrom (scan : GroupScan) (chars : Array Char) (inClass : Bool) (i : Nat) :
    Option GroupScan :=
  if i < chars.size then do
    let c ← chars[i]?
    if c = '\\' then scan |>.runFrom chars inClass (i + 2)
    else if c = '[' then scan |>.runFrom chars true (i + 1)
    else if c = ']' then scan |>.runFrom chars false (i + 1)
    else if c ≠ '(' ∨ inClass then scan |>.runFrom chars inClass (i + 1)
    else if chars[i + 1]? ≠ some '?' then
      (⟨scan.count + 1, scan.names⟩ : GroupScan) |>.runFrom chars inClass (i + 1)
    else if chars[i + 2]? = some '<' ∧ chars[i + 3]? ≠ some '=' ∧ chars[i + 3]? ≠ some '!' then
      if i + 3 ≤ chars.size then
        let name := String.ofList ((chars.toList.drop (i + 3)).takeWhile (· != '>'))
        (⟨scan.count + 1, scan.names ++ [(name, scan.count + 1)]⟩ : GroupScan)
          |>.runFrom chars inClass (i + 1)
      else none
    else scan |>.runFrom chars inClass (i + 1)
  else some scan
partial_fixpoint

/-- A pattern that is read by position. -/
structure PatternText where
  flags : Flags
  chars : Array Char
  groups : GroupScan

namespace PatternText

open Scan

/-! ### Positions -/

def peekAt (s : PatternText) (offset : Nat) : Scan (Option Char) :=
  return s.chars[(← get).pos + offset]?

def peek (s : PatternText) : Scan (Option Char) := s.peekAt 0

/-- Moves to a position of the pattern or to its end. -/
def goTo (s : PatternText) (pos : Nat) : Scan Unit :=
  if pos ≤ s.chars.size then modify fun x => { x with pos := pos } else crash

def move (s : PatternText) (chars : Nat) : Scan Unit := do
  let pos ← position
  s.goTo (pos + chars)

def moveBack (s : PatternText) : Scan Unit := do
  let pos ← minus (← position) 1
  s.goTo pos

/-- The next character, which is consumed. -/
def advance (s : PatternText) : Scan (Option Char) := do
  match ← s.peek with
  | some c =>
    s.move 1
    return some c
  | none => return none

/-- Consumes one given character, if it is next. -/
def accept (s : PatternText) (c : Char) : Scan Bool := do
  if (← s.peek) = some c then
    s.move 1
    return true
  else return false

/-- Whether some characters stand at a position. -/
def looksAt (s : PatternText) (pos : Nat) : List Char → Bool
  | [] => true
  | c :: rest => s.chars[pos]? == some c && s.looksAt (pos + 1) rest

def lookingAt (s : PatternText) (chars : List Char) : Scan Bool :=
  return s.looksAt (← position) chars

/-! ### Numerals -/

/-- Consumes digits for as long as there are any. -/
def scanDigits (s : PatternText) (base : Nat) (digits : List Nat) : Scan (List Nat) := do
  match (← s.peek).bind (digitValue? base) with
  | some d =>
    s.move 1
    s |>.scanDigits base (digits ++ [d])
  | none => return digits
partial_fixpoint

/-- The decimal digits from an index on, and the index behind them. -/
def digitsAt (s : PatternText) (i : Nat) (digits : List Nat) : Option (List Nat × Nat) :=
  match s.chars[i]?.bind (digitValue? 10) with
  | some d => s |>.digitsAt (i + 1) (digits ++ [d])
  | none => some (digits, i)
partial_fixpoint

/-- Up to `count` octal digits, as long as the value stays below 256. -/
def scanOctal (s : PatternText) (value : Nat) : Nat → Scan Nat
  | 0 => return value
  | count + 1 => do
    match (← s.peek).bind (digitValue? 8) with
    | some d =>
      if value * 8 + d < 256 then
        s.move 1
        s.scanOctal (value * 8 + d) count
      else return value
    | none => return value

/-- The value of exactly `count` hexadecimal digits at an index. -/
def hexAt? (s : PatternText) (i value : Nat) : Nat → Option Nat
  | 0 => some value
  | count + 1 =>
    match s.chars[i]?.bind (digitValue? 16) with
    | some d => s.hexAt? (i + 1) (value * 16 + d) count
    | none => none

/-- Exactly `count` hexadecimal digits, or none at all. -/
def scanHex? (s : PatternText) (count : Nat) : Scan (Option Nat) := do
  match s.hexAt? (← position) 0 count with
  | some value =>
    s.move count
    return some value
  | none => return none

/-- Bounds whose closing brace stands at `i`, and their length from the opening brace on. -/
def closeBraces (s : PatternText) (opened i : Nat) (bounds : Nat × Option Nat) :
    Scan (Option ((Nat × Option Nat) × Nat)) := do
  if s.chars[i]? = some '}' then
    let length ← minus (i + 1) opened
    return some (bounds, length)
  else return none

/-- The bounds in braces at the current position, and their length with the braces. Nothing is
consumed. -/
def scanBraces (s : PatternText) : Scan (Option ((Nat × Option Nat) × Nat)) := do
  let opened ← position
  let (low, i) ← ofOption (s.digitsAt (opened + 1) [])
  let min := numberUpTo maxRepeat 10 low
  if low.isEmpty then return none
  else if s.chars[i]? = some ',' then
    if s.chars[i + 1]? = some '}' then s.closeBraces opened (i + 1) (min, none)
    else
      let (high, i) ← ofOption (s.digitsAt (i + 1) [])
      if high.isEmpty then return none
      else s.closeBraces opened i (min, some (numberUpTo maxRepeat 10 high))
  else s.closeBraces opened i (min, some min)

/-! ### Escapes -/

/-- The escape `u` with four digits, or with braces or a surrogate pair in unicode mode. A pair that
is none is left where it is. -/
def scanUnicodeEscape (s : PatternText) : Scan (Option Nat) := do
  let c ← s.peek
  if s.flags.unicode && c == some '{' then
    s.move 1
    let digits ← s.scanDigits 16 []
    if digits.isEmpty then fail .invalidUnicodeEscape
    else if !(← s.accept '}') then fail .invalidUnicodeEscape
    else
      let n := numberUpTo 0x110000 16 digits
      if 0x10FFFF < n then fail .invalidUnicodeEscape else return some n
  else
    match ← s.scanHex? 4 with
    | none => return none
    | some lead =>
      let paired ← s.lookingAt ['\\', 'u']
      if s.flags.unicode && 0xD800 ≤ lead && lead < 0xDC00 && paired then
        let saved ← position
        s.move 2
        match ← s.scanHex? 4 with
        | some trail =>
          if 0xDC00 ≤ trail && trail < 0xE000 then
            return some (0x10000 + (← minus lead 0xD800) * 0x400 + (← minus trail 0xDC00))
          else
            s.goTo saved
            return some lead
        | none =>
          s.goTo saved
          return some lead
      else return some lead

/-- Without a control letter the backslash stands for itself and the `c` is read again. -/
def putBackControl (s : PatternText) : Scan Atom := do
  if s.flags.unicode then fail .invalidUnicodeEscape
  else
    s.moveBack
    return .unit 0x5C

/-- What follows the `c` of an escape. -/
def scanControl (s : PatternText) : Scan Atom := do
  match ← s.peek with
  | some l =>
    if ('a' ≤ l ∧ l ≤ 'z') ∨ ('A' ≤ l ∧ l ≤ 'Z') then
      s.move 1
      return .unit (UInt16.ofNat (l.toNat % 32))
    else s.putBackControl
  | none => s.putBackControl

/-- An escape of a character that is no letter with a meaning of its own. -/
def scanOtherEscape (s : PatternText) (inClass : Bool) (c : Char) : Scan Atom := do
  let next ← s.peek
  if inClass && c == 'b' then return .unit 0x08
  else if inClass && c == '-' then return .unit 0x2D
  else if c == '0' && !(next.any Char.isDigit) then return .unit 0
  else if ('0' ≤ c ∧ c ≤ '9') ∧ !s.flags.unicode then
    if '8' ≤ c then return .ofCodePoint c.toNat
    else
      s.moveBack
      return .unit (UInt16.ofNat (← s.scanOctal 0 3))
  else if s.flags.unicode then
    if reservedCharacters.contains c then return .ofCodePoint c.toNat else fail .invalidEscape
  else return .ofCodePoint c.toNat

/-- An escape that means the same inside and outside a class. The backslash is already consumed. -/
def scanCharacterEscape (s : PatternText) (inClass : Bool) : Scan Atom := do
  match ← s.advance with
  | none => fail .trailingBackslash
  | some c =>
    match c with
    | 'd' => return .set .digits
    | 'D' => return .set CharSet.digits.complement
    | 'w' => return .set .word
    | 'W' => return .set CharSet.word.complement
    | 's' => return .set .space
    | 'S' => return .set CharSet.space.complement
    | 't' => return .unit 0x09
    | 'n' => return .unit 0x0A
    | 'v' => return .unit 0x0B
    | 'f' => return .unit 0x0C
    | 'r' => return .unit 0x0D
    | 'c' => s.scanControl
    | 'x' =>
      match ← s.scanHex? 2 with
      | some n => return .unit (UInt16.ofNat n)
      | none => if s.flags.unicode then fail .invalidEscape else return .unit 0x78
    | 'u' =>
      match ← s.scanUnicodeEscape with
      | some n => return .ofCodePoint n
      | none => if s.flags.unicode then fail .invalidUnicodeEscape else return .unit 0x75
    | _ => s.scanOtherEscape inClass c

/-- A group name and the `>` behind it. The characters that were read come last first. -/
def scanGroupName (s : PatternText) (name : List Char) : Scan String := do
  match ← s.advance with
  | some c =>
    if c = '>' ∧ name ≠ [] then return String.ofList name.reverse
    else if isNameStart c ∨ (name ≠ [] ∧ isNameContinuation c) then s |>.scanGroupName (c :: name)
    else fail .invalidGroupName
  | none => fail .invalidGroupName
partial_fixpoint

/-- A literal code point. One above U+FFFF becomes a group around its surrogate pair. -/
def scanLiteral (s : PatternText) (n : Nat) : Scan Term := do
  if n < 0x10000 then return s.flags.unitTerm (CharSet.single (UInt16.ofNat n))
  else
    let v ← minus n 0x10000
    let pair := [UInt16.ofNat (0xD800 + v / 0x400), UInt16.ofNat (0xDC00 + v % 0x400)]
    return .group none none
      (.one (Branch.ofList (pair.map fun c => s.flags.unitTerm (CharSet.single c))))

/-- A back-reference, or a literal if there are not as many groups. -/
def scanDecimalEscape (s : PatternText) (c : Char) : Scan Term := do
  let start ← position
  let digits ← s.scanDigits 10 []
  let n := digits.foldl (fun value d => value * 10 + d) 0
  if n ≤ s.groups.count then return .backReference n
  else if s.flags.unicode then fail .invalidEscape
  else
    s.goTo start
    if '8' ≤ c then
      s.move 1
      s.scanLiteral c.toNat
    else s.scanLiteral (← s.scanOctal 0 3)

def scanNamedReference (s : PatternText) : Scan Term := do
  s.move 1
  if !(← s.accept '<') then fail .invalidNamedReference
  else
    let name ← s.scanGroupName []
    match s.groups.names.find? (·.1 == name) with
    | some (_, n) => return .backReference n
    | none => fail .unknownGroupName

/-- An escape outside a class, with the backslash in front of it. -/
def scanEscape (s : PatternText) : Scan Term := do
  s.move 1
  match ← s.peek with
  | none => fail .trailingBackslash
  | some c =>
    if '1' ≤ c ∧ c ≤ '9' then s.scanDecimalEscape c
    else if c = 'k' ∧ (s.flags.unicode ∨ s.groups.names ≠ []) then s.scanNamedReference
    else
      match ← s.scanCharacterEscape false with
      | .set set => return s.flags.unitTerm set
      | .unit u => return s.flags.unitTerm (CharSet.single u)
      | .astral n => s.scanLiteral n

/-! ### Classes -/

def scanClassEscape (s : PatternText) : Scan Atom := do
  let c ← s.peek
  match c.filter fun c => '1' ≤ c ∧ c ≤ '9' with
  | some d =>
    if s.flags.unicode then fail .invalidClassEscape
    else if '8' ≤ d then
      s.move 1
      return .ofCodePoint d.toNat
    else return .unit (UInt16.ofNat (← s.scanOctal 0 3))
  | none =>
    if s.flags.unicode && c == some 'B' then fail .invalidClassEscape
    else
      match ← s.scanCharacterEscape true with
      | .astral _ => fail .astralInClass
      | atom => return atom

def scanClassAtom (s : PatternText) : Scan Atom := do
  match ← s.advance with
  | none => fail .unterminatedClass
  | some c =>
    if c = '\\' then s.scanClassEscape
    else if 0xFFFF < c.toNat then
      s.moveBack
      fail .astralInClass
    else return .unit (UInt16.ofNat c.toNat)

/-- The items of a class up to its closing bracket. `opened` is the position of the opening one. -/
def scanClassItems (s : PatternText) (opened : Nat) (ranges : List Interval) :
    Scan (List Interval) := do
  match ← s.peek with
  | none => throw (.unterminatedClass, opened)
  | some ']' =>
    s.move 1
    return ranges
  | some _ =>
    let low ← s.scanClassAtom
    let dash ← s.peek
    let next ← s.peekAt 1
    if dash ≠ some '-' ∨ next = none ∨ next = some ']' then
      s |>.scanClassItems opened (ranges ++ low.intervals)
    else
      s.move 1
      let high ← s.scanClassAtom
      match low, high with
      | .unit a, .unit b =>
        if b < a then fail .classOutOfOrder
        else s |>.scanClassItems opened (ranges ++ [Interval.ofEnds a b])
      | _, _ =>
        if s.flags.unicode then fail .invalidClass
        else
          s |>.scanClassItems opened
            (ranges ++ low.intervals ++ [Interval.single 0x2D] ++ high.intervals)
partial_fixpoint

def scanClass (s : PatternText) : Scan Term := do
  let opened ← position
  s.move 1
  let negated ← s.accept '^'
  let ranges ← s.scanClassItems opened []
  let set := CharSet.ofIntervals ranges
  let set := if s.flags.ignoreCase then set.caseClosure s.flags.unicode else set
  return .unit (if negated then set.complement else set)

/-! ### Quantifiers -/

def atQuantifier (s : PatternText) : Scan Bool := do
  match ← s.peek with
  | some '*' | some '+' | some '?' => return true
  | some '{' => return (← s.scanBraces).isSome
  | _ => return false

/-- The bounds of a quantifier, if there is one. Their last character is still to be consumed. -/
def scanBoundsFront (s : PatternText) : Scan (Option (Nat × Option Nat)) := do
  match ← s.peek with
  | some '*' => return some (0, none)
  | some '+' => return some (1, none)
  | some '?' => return some (0, some 1)
  | some '{' =>
    match ← s.scanBraces with
    | some ((low, high), length) =>
      if high.any (· < low) then fail .quantifierOutOfOrder
      else
        s.move (← minus length 1)
        return some (low, high)
    | none => if s.flags.unicode then fail .incompleteQuantifier else return none
  | _ => return none

def scanBounds (s : PatternText) : Scan (Option (Nat × Option Nat)) := do
  match ← s.scanBoundsFront with
  | none => return none
  | some bounds =>
    s.move 1
    return some bounds

def scanQuantifier (s : PatternText) : Scan (Option Quantifier) := do
  match ← s.scanBounds with
  | none => return none
  | some (low, high) =>
    let lazy ← s.accept '?'
    return some ⟨low, high, !lazy⟩

/-! ### Terms -/

/-- The assertion at the current position, if there is one. -/
def anchorAhead (s : PatternText) : Scan (Option Anchor) := do
  match ← s.peek with
  | some '^' => return some .caret
  | some '$' => return some .dollar
  | some '\\' =>
    let next ← s.peekAt 1
    if next = some 'b' then return some .wordBoundary
    else if next = some 'B' then return some .notWordBoundary
    else return none
  | _ => return none

def scanAnchor (s : PatternText) (kind : Anchor) : Scan Term := do
  s.move (if kind = .caret ∨ kind = .dollar then 1 else 2)
  if kind = .caret && s.flags.multiline then widenContext 1
  if ← s.atQuantifier then fail .nothingToRepeat else return .anchor kind

/-- One atom that does not start with a parenthesis, without its quantifier. -/
def scanLeaf (s : PatternText) : Scan Term := do
  match ← s.peek with
  | none => fail .unexpectedEnd
  | some c =>
    match c with
    | '[' => s.scanClass
    | '\\' => s.scanEscape
    | '.' =>
      s.move 1
      return .unit (if s.flags.dotAll then .full else CharSet.lineTerminators.complement)
    | '*' | '+' | '?' => fail .nothingToRepeat
    | _ =>
      let braces ← if c = '{' then s.scanBraces else pure none
      if braces.isSome then fail .nothingToRepeat
      else if s.flags.unicode && (c == '{' || c == '}' || c == ']') then
        fail .loneQuantifierBracket
      else
        s.move 1
        s.scanLiteral c.toNat

/-- What comes behind a parenthesis. -/
inductive Opening where
  | plain
  | look (behind negated : Bool)
  | capture (number : Nat)

/-- What a pair of parentheses is around some branches. -/
def Opening.term (body : Choice) : Opening → Scan Term
  | .plain => return .group none none body
  | .capture n => return .group (some n) none body
  | .look behind negated => do
    if behind then
      match body.soleSequence? with
      | some sets => widenContext sets.length
      | none => pure ()
    return .look behind negated body

/-- The name of a capture, which must be new. -/
def scanNamedCapture (s : PatternText) : Scan Opening := do
  let name ← s.scanGroupName []
  if (← get).named.any (·.1 == name) then fail .duplicateGroupName
  else
    let n ← newGroup
    modify fun x => { x with named := x.named ++ [(name, n)] }
    return .capture n

/-- What comes behind a question mark that follows a parenthesis. -/
def scanKind (s : PatternText) : Scan Opening := do
  match ← s.advance with
  | some ':' => return .plain
  | some '=' => return .look false false
  | some '!' => return .look false true
  | some '<' =>
    let next ← s.peek
    if next = some '=' ∨ next = some '!' then
      s.move 1
      return .look true (next == some '!')
    else s.scanNamedCapture
  | _ => fail .invalidGroup

/-- The opening parenthesis of a group and what tells its kind. -/
def scanOpening (s : PatternText) : Scan Opening := do
  s.move 1
  if ← s.accept '?' then s.scanKind
  else
    let n ← newGroup
    return .capture n

mutual

/-- One atom without its quantifier. -/
def scanAtom (s : PatternText) : Scan Term := do
  match ← s.peek with
  | some '(' => s |>.scanGroup
  | _ => s.scanLeaf
partial_fixpoint

/-- An assertion, or an atom with its quantifier. -/
def scanTerm (s : PatternText) : Scan Term := do
  match ← s.anchorAhead with
  | some kind => s.scanAnchor kind
  | none =>
    let behind ← s.lookingAt ['(', '?', '<', '=']
    let notBehind ← s.lookingAt ['(', '?', '<', '!']
    let atom ← s |>.scanAtom
    match ← s.scanQuantifier with
    | none => return atom
    | some q =>
      if behind || notBehind || (s.flags.unicode && atom.isLook) then fail .nothingToRepeat
      else return atom.repeated q
partial_fixpoint

/-- The terms up to a bar, a closing parenthesis or the end. Those that were read come last
first. -/
def scanTerms (s : PatternText) (terms : List Term) : Scan Branch := do
  match ← s.peek with
  | none | some '|' | some ')' => return Branch.ofList terms.reverse
  | some _ =>
    let t ← s |>.scanTerm
    s |>.scanTerms (t :: terms)
partial_fixpoint

/-- Branches separated by bars. -/
def scanChoice (s : PatternText) : Scan Choice := do
  let branch ← s |>.scanTerms []
  if ← s.accept '|' then return .more branch (← s |>.scanChoice) else return .one branch
partial_fixpoint

/-- What stands in a pair of parentheses, with both of them. -/
def scanGroupBody (s : PatternText) : Scan Term := do
  let opened ← position
  let opening ← s.scanOpening
  let body ← s |>.scanChoice
  let t ← opening.term body
  if ← s.accept ')' then return t else throw (.unterminatedGroup, opened)
partial_fixpoint

/-- A parenthesized term. -/
def scanGroup (s : PatternText) : Scan Term := do
  enter
  let t ← s |>.scanGroupBody
  leave
  return t
partial_fixpoint

end

def scanPattern (s : PatternText) : Scan Choice := do
  let body ← s.scanChoice
  if (← position) < s.chars.size then fail .unmatchedParenthesis else return body

end PatternText

/-- Reads a source by position. -/
def Source.scan (s : Source) : Option (Except SyntaxError Pattern) := do
  let chars := s.pattern.toList.toArray
  let groups ← ({} : GroupScan).runFrom chars false 0
  match ← ((PatternText.scanPattern ⟨s.flags, chars, groups⟩).run {}).run with
  | .error (fault, position) => some (.error ⟨s.pattern, fault, position⟩)
  | .ok (body, spot) =>
    some <| .ok
      { body := body
        flags := s.flags
        groupCount := groups.count + 1
        groupNames := spot.named
        context := spot.context }

end UnitRegex
