import UnitRegex.Alphabet.CharSet

/-! The predefined sets of code units, and the two of them that are also tested unit by unit. -/

namespace UnitRegex

namespace CharSet

def digits : CharSet := ofInterval (Interval.ofEnds 0x30 0x39)

def word : CharSet :=
  ofIntervals [Interval.ofEnds 0x30 0x39, Interval.ofEnds 0x41 0x5A, Interval.single 0x5F,
    Interval.ofEnds 0x61 0x7A]

def space : CharSet :=
  ofIntervals [Interval.ofEnds 0x09 0x0D, Interval.single 0x20, Interval.single 0xA0,
    Interval.single 0x1680, Interval.ofEnds 0x2000 0x200A, Interval.ofEnds 0x2028 0x2029,
    Interval.single 0x202F, Interval.single 0x205F, Interval.single 0x3000,
    Interval.single 0xFEFF]

def lineTerminators : CharSet :=
  ofIntervals [Interval.single 0x0A, Interval.single 0x0D, Interval.ofEnds 0x2028 0x2029]

end CharSet

def CodeUnit.isLineTerminator (c : CodeUnit) : Bool :=
  c == 0x0A || c == 0x0D || c == 0x2028 || c == 0x2029

def CodeUnit.isWord (c : CodeUnit) : Bool :=
  (0x30 ≤ c && c ≤ 0x39) || (0x41 ≤ c && c ≤ 0x5A) || c == 0x5F || (0x61 ≤ c && c ≤ 0x7A)

end UnitRegex
