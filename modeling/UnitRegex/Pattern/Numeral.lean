/-! Numbers and escapes as they are spelled inside patterns. -/

namespace UnitRegex

/-- The value of a digit in a base up to sixteen; letters count in either case. -/
def digitValue? (base : Nat) (c : Char) : Option Nat :=
  let value? :=
    if '0' ≤ c ∧ c ≤ '9' then some (c.toNat - '0'.toNat)
    else if 'a' ≤ c ∧ c ≤ 'f' then some (c.toNat - 'a'.toNat + 10)
    else if 'A' ≤ c ∧ c ≤ 'F' then some (c.toNat - 'A'.toNat + 10)
    else none
  value?.filter (· < base)

/-- The values of the digits at the front of a list, and what follows them. -/
def takeDigits (base : Nat) : List Char → List Nat × List Char
  | [] => ([], [])
  | c :: rest =>
    match digitValue? base c with
    | some d =>
      let (ds, rest) := takeDigits base rest
      (d :: ds, rest)
    | none => ([], c :: rest)

/-- The number written by some digits, or `limit` if it is larger. -/
def numberUpTo (limit base : Nat) (digits : List Nat) : Nat :=
  digits.foldl (fun value d => min limit (value * base + d)) 0

/-- Bounds of repetition are 32-bit numbers; larger ones stop at the greatest of them. -/
def maxRepeat : Nat := 4294967295

/-- The quantifiers `n\x7d`, `n,\x7d` and `n,m\x7d`, read behind the opening brace. -/
def readBraces? (chars : List Char) : Option ((Nat × Option Nat) × List Char) :=
  match takeDigits 10 chars with
  | ([], _) => none
  | (low, '}' :: rest) =>
    some ((numberUpTo maxRepeat 10 low, some (numberUpTo maxRepeat 10 low)), rest)
  | (low, ',' :: '}' :: rest) => some ((numberUpTo maxRepeat 10 low, none), rest)
  | (low, ',' :: more) =>
    match takeDigits 10 more with
    | ([], _) => none
    | (high, '}' :: rest) =>
      some ((numberUpTo maxRepeat 10 low, some (numberUpTo maxRepeat 10 high)), rest)
    | _ => none
  | _ => none

/-- Up to `count` octal digits, as long as the value stays below 256. -/
def readOctal (value : Nat) : Nat → List Char → Nat × List Char
  | 0, chars => (value, chars)
  | _ + 1, [] => (value, [])
  | count + 1, c :: rest =>
    match digitValue? 8 c with
    | some d => if value * 8 + d < 256 then readOctal (value * 8 + d) count rest
      else (value, c :: rest)
    | none => (value, c :: rest)

/-- Exactly `count` hexadecimal digits. -/
def readHex? (value : Nat) : Nat → List Char → Option (Nat × List Char)
  | 0, chars => some (value, chars)
  | _ + 1, [] => none
  | count + 1, c :: rest =>
    match digitValue? 16 c with
    | some d => readHex? (value * 16 + d) count rest
    | none => none

end UnitRegex
