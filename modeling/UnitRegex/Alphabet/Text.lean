import UnitRegex.Alphabet.Interval

/-!
Input text as an array of code units. Strings are encoded as UTF-16; decoding puts U+FFFD in the
place of every surrogate that has no partner.
-/

namespace UnitRegex

abbrev Text := Array CodeUnit

/-- One unit, or the surrogate pair of a code point above U+FFFF. -/
def encodeCodePoint (n : Nat) : List CodeUnit :=
  if n < 0x10000 then [UInt16.ofNat n]
  else
    [UInt16.ofNat (0xD800 + (n - 0x10000) / 0x400), UInt16.ofNat (0xDC00 + (n - 0x10000) % 0x400)]

def Text.ofString (s : String) : Text :=
  s.foldl (fun text c => text.appendList (encodeCodePoint c.toNat)) #[]

def CodeUnit.isHighSurrogate (c : CodeUnit) : Bool := 0xD800 ≤ c && c < 0xDC00

def CodeUnit.isLowSurrogate (c : CodeUnit) : Bool := 0xDC00 ≤ c && c < 0xE000

def decodePair (high low : CodeUnit) : Char :=
  Char.ofNat (0x10000 + (high.toNat - 0xD800) * 0x400 + (low.toNat - 0xDC00))

def decodeUnit (c : CodeUnit) : Char :=
  if c.isHighSurrogate || c.isLowSurrogate then '\uFFFD' else Char.ofNat c.toNat

def decodeUnits : List CodeUnit → List Char
  | [] => []
  | [c] => [decodeUnit c]
  | c :: d :: rest =>
    if c.isHighSurrogate && d.isLowSurrogate then decodePair c d :: decodeUnits rest
    else decodeUnit c :: decodeUnits (d :: rest)

/-- The text from `start` up to `stop` as a string. -/
def Text.slice (text : Text) (start stop : Nat) : String :=
  String.ofList (decodeUnits (text.extract start stop).toList)

end UnitRegex
