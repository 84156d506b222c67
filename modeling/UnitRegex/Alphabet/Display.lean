import UnitRegex.Alphabet.CharSet

/-! Written forms of code units and of sets. -/

namespace UnitRegex

/-- Lower-case hexadecimal digits, filled up with zeros to `width`. -/
def hexPadded (width n : Nat) : String :=
  let digits := Nat.toDigits 16 n
  String.ofList (List.replicate (width - digits.length) '0' ++ digits)

/-- A printable ASCII unit stands for itself, any other is written as an escape. -/
def CodeUnit.display (c : CodeUnit) : String :=
  if 0x21 ≤ c && c ≤ 0x7E then String.singleton (Char.ofNat c.toNat)
  else "\\u" ++ hexPadded 4 c.toNat

def Interval.display (r : Interval) : String :=
  if r.isSingle then r.lo.display else r.lo.display ++ "-" ++ r.hi.display

def CharSet.display (s : CharSet) : String :=
  "[" ++ String.join (s.intervals.map Interval.display) ++ "]"

end UnitRegex
