import UnitRegex.Alphabet.Display

/-!
Tests for membership in a set of code units that do not walk the set. A set is cut into runs of
intervals that lie in one block of 256 units; every run becomes one test, and the set or its
complement is tested, whichever is cheaper.
-/

namespace UnitRegex

/-- The set of all `b < 256` with `p b`, as bits. -/
def bitmapOf (p : Nat → Bool) : BitVec 256 :=
  (List.range 256).foldl (fun bits b => if p b then bits ||| BitVec.twoPow 256 b else bits) 0

inductive UnitTest where
  | single (c : CodeUnit)
  | range (r : Interval)
  /-- The units of one block whose low byte is in `bits`. -/
  | block (high : UInt8) (bits : BitVec 256)
  /-- The same for the block of the units below 256. -/
  | lowBlock (bits : BitVec 256)
  deriving DecidableEq

def CodeUnit.high (c : CodeUnit) : UInt8 := (c >>> 8).toUInt8

def CodeUnit.low (c : CodeUnit) : UInt8 := c.toUInt8

namespace UnitTest

def accepts (c : CodeUnit) : UnitTest → Bool
  | single d => c == d
  | range r => r.lo ≤ c && c ≤ r.hi
  | block high bits => c.high == high && bits.getLsbD c.low.toNat
  | lowBlock bits => c < 256 && bits.getLsbD c.low.toNat

/-- Rough number of comparisons. -/
def cost : UnitTest → Nat
  | single _ | lowBlock _ => 1
  | range _ | block _ _ => 2

def ofInterval (r : Interval) : UnitTest := if r.isSingle then single r.lo else range r

/-- The units of the block `high` that lie in one of some intervals. -/
def blockBits (high : UInt8) (run : List Interval) : BitVec 256 :=
  bitmapOf fun b => run.any fun r =>
    r.lo.toNat ≤ high.toNat * 256 + b && high.toNat * 256 + b ≤ r.hi.toNat

/-- A run of intervals of one block, or a single interval of any extent. -/
def ofRun : List Interval → UnitTest
  | [] => lowBlock 0
  | [r] => ofInterval r
  | r :: rest =>
    let bits := blockBits r.lo.high (r :: rest)
    if r.lo.high == 0 then lowBlock bits else block r.lo.high bits

def display : UnitTest → String
  | single c => "0x" ++ hexPadded 4 c.toNat
  | range r => "0x" ++ hexPadded 4 r.lo.toNat ++ "-0x" ++ hexPadded 4 r.hi.toNat
  | block high _ => "bitset(0x" ++ hexPadded 2 high.toNat ++ ")"
  | lowBlock _ => "bitset(0x00)"

end UnitTest

/-- Whether two neighbouring intervals lie in the same block of 256 units. -/
def Interval.sameBlock (a b : Interval) : Bool :=
  a.lo.high == a.hi.high && b.lo.high == b.hi.high && a.lo.high == b.lo.high

/-- One test, or several of which at most one accepts a given unit. -/
inductive UnitTests where
  | one (test : UnitTest)
  | anyOf (tests : List UnitTest)
  deriving DecidableEq

namespace UnitTests

def accepts (c : CodeUnit) : UnitTests → Bool
  | one t => t.accepts c
  | anyOf ts => ts.any (·.accepts c)

def cost : UnitTests → Nat
  | one t => t.cost
  | anyOf ts => ts.foldl (fun total t => total + t.cost) 1

def ofIntervals (l : List Interval) : UnitTests :=
  match (l.splitBy Interval.sameBlock).map UnitTest.ofRun with
  | [t] => one t
  | ts => anyOf ts

def display : UnitTests → String
  | one t => t.display
  | anyOf ts => "[" ++ ", ".intercalate (ts.map UnitTest.display) ++ "]"

end UnitTests

structure Matcher where
  inverted : Bool
  tests : UnitTests
  deriving DecidableEq

namespace Matcher

def accepts (m : Matcher) (c : CodeUnit) : Bool := m.tests.accepts c != m.inverted

def cost (m : Matcher) : Nat := m.tests.cost + if m.inverted then 1 else 0

/-- The cheaper one of a matcher for the set and an inverted one for its complement. -/
def ofSet (s : CharSet) : Matcher :=
  let direct : Matcher := ⟨false, .ofIntervals s.intervals⟩
  let viaComplement : Matcher := ⟨true, .ofIntervals s.complement.intervals⟩
  if viaComplement.cost < direct.cost then viaComplement else direct

/-- The unit this matcher compares with, if that is all it does. -/
def single? (m : Matcher) : Option CodeUnit :=
  match m.inverted, m.tests with
  | false, .one (.single c) => some c
  | _, _ => none

def display (m : Matcher) : String := (if m.inverted then "!" else "") ++ m.tests.display

end Matcher

end UnitRegex
