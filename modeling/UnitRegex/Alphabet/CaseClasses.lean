import UnitRegex.Alphabet.CaseMap
import UnitRegex.Alphabet.CharSet

/-!
Case-insensitive comparison. Two units are case-equivalent when they have the same canonical form;
folding a set adds every unit that is equivalent to a member.
-/

namespace UnitRegex

/-- The canonical form outside unicode mode is the upper case, but no unit outside ASCII is sent
into ASCII. -/
def legacyCanonical (c : CodeUnit) : CodeUnit :=
  let up := upperCase c
  if 128 ≤ c && up < 128 then c else up

/-- The canonical form in unicode mode is the lower case of the upper case. The dotted capital and
the dotless small i keep to themselves. -/
def unicodeCanonical (c : CodeUnit) : CodeUnit :=
  if c == 0x130 || c == 0x131 then c else lowerCase (upperCase c)

def canonicalUnit (unicode : Bool) (c : CodeUnit) : CodeUnit :=
  if unicode then unicodeCanonical c else legacyCanonical c

def allUnits : List CodeUnit := (List.range 65536).map UInt16.ofNat

/-- The classes of units that share a canonical form, without the classes of one unit. -/
def caseClasses (canonical : CodeUnit → CodeUnit) : List (List CodeUnit) :=
  let buckets := allUnits.foldl (fun acc c => acc.modify (canonical c).toNat (c :: ·))
    (Array.replicate 65536 [])
  buckets.toList.filter (1 < ·.length)

def legacyClasses : List (List CodeUnit) := caseClasses legacyCanonical

def unicodeClasses : List (List CodeUnit) := caseClasses unicodeCanonical

namespace CharSet

/-- Adds to `s` every class that has a member in `s`. -/
def close (classes : List (List CodeUnit)) (s : CharSet) : CharSet :=
  match classes.filter (·.any s.contains) with
  | [] => s
  | touched => ofIntervals (touched.flatten.map Interval.single ++ s.intervals)

def caseClosure (unicode : Bool) (s : CharSet) : CharSet :=
  s.close (if unicode then unicodeClasses else legacyClasses)

end CharSet

end UnitRegex
