import UnitRegex.Table.Matcher

/-!
Matchers as they are packed in one pass over a set. The bits of a block stand in four words. The
intervals of one block are collected until one comes that lies elsewhere, and an interval that
reaches over several blocks stands alone.
-/

namespace UnitRegex

/-- The units of an interval, in order. -/
def Interval.units (r : Interval) : List CodeUnit :=
  (List.range' r.lo.toNat r.size).map UInt16.ofNat

/-- A set of bytes with a bit for each of them, in four words. -/
structure ByteSet where
  words : Vector UInt64 4

namespace ByteSet

def empty : ByteSet := ⟨.replicate 4 0⟩

/-- The index of the word that has the bit of a byte. -/
def place (b : UInt8) : Fin 4 :=
  ⟨(b >>> 6).toNat, by
    have hb := b.toNat_lt
    rw [UInt8.toNat_shiftRight, Nat.shiftRight_eq_div_pow]
    show b.toNat / 64 < 4
    omega⟩

def mask (b : UInt8) : UInt64 := 1 <<< (b &&& 63).toUInt64

/-- The word that has the bit of a byte. -/
def word (bits : ByteSet) (b : UInt8) : UInt64 := bits.words[place b]

def test (bits : ByteSet) (b : UInt8) : Bool := bits.word b &&& mask b != 0

def insert (bits : ByteSet) (b : UInt8) : ByteSet :=
  ⟨bits.words.set (place b) (bits.word b ||| mask b)⟩

/-- The low bytes of all units of some intervals. -/
def ofRun (run : List Interval) : ByteSet :=
  run.foldl (fun bits r => r.units.foldl (fun bits c => bits.insert c.low) bits) empty

end ByteSet

inductive PackedTest where
  | single (c : CodeUnit)
  | range (r : Interval)
  /-- The units of one block whose low byte is in `bits`. -/
  | block (high : UInt8) (bits : ByteSet)
  /-- The same for the block of the units below 256. -/
  | lowBlock (bits : ByteSet)

namespace PackedTest

def accepts (c : CodeUnit) : PackedTest → Bool
  | single d => c == d
  | range r => r.lo ≤ c && c ≤ r.hi
  | block high bits => c.high == high && bits.test c.low
  | lowBlock bits => c < 256 && bits.test c.low

def cost : PackedTest → Nat
  | single _ | lowBlock _ => 1
  | range _ | block _ _ => 2

def ofInterval (r : Interval) : PackedTest := if r.isSingle then single r.lo else range r

/-- The test for the intervals of a run, if it has any. -/
def ofRun? : List Interval → Option PackedTest
  | [] => none
  | [r] => some (ofInterval r)
  | r :: rest =>
    let bits := ByteSet.ofRun (r :: rest)
    some (if r.lo.high == 0 then lowBlock bits else block r.lo.high bits)

end PackedTest

/-- The tests that are complete, and the intervals that are collected for the next one. -/
structure Packing where
  parts : List PackedTest := []
  run : List Interval := []

namespace Packing

def flush (p : Packing) : Packing := ⟨p.parts ++ (PackedTest.ofRun? p.run).toList, []⟩

/-- Takes an interval to the run if it lies in the block of the run. Otherwise it begins another
run, or it becomes a test of its own if it lies in more than one block. -/
def take (p : Packing) (r : Interval) : Packing :=
  let confined := r.lo.high == r.hi.high
  let joins := confined && p.run.head?.any (·.lo.high == r.lo.high)
  let p := if joins then p else p.flush
  if confined then { p with run := p.run ++ [r] }
  else { p with parts := p.parts ++ [.ofInterval r] }

end Packing

/-- One test, or several of which one has to accept. -/
inductive PackedTests where
  | one (test : PackedTest)
  | anyOf (tests : List PackedTest)

namespace PackedTests

def accepts (c : CodeUnit) : PackedTests → Bool
  | one t => t.accepts c
  | anyOf ts => ts.any (·.accepts c)

def cost : PackedTests → Nat
  | one t => t.cost
  | anyOf ts => ts.foldl (fun total t => total + t.cost) 1

def ofIntervals : List Interval → PackedTests
  | [] => anyOf []
  | [r] => one (.ofInterval r)
  | l =>
    match (l.foldl Packing.take {}).flush.parts with
    | [t] => one t
    | ts => anyOf ts

end PackedTests

structure PackedMatcher where
  inverted : Bool
  tests : PackedTests

namespace PackedMatcher

def accepts (m : PackedMatcher) (c : CodeUnit) : Bool := m.tests.accepts c != m.inverted

def cost (m : PackedMatcher) : Nat := m.tests.cost + if m.inverted then 1 else 0

def ofSet (s : CharSet) : PackedMatcher :=
  let direct : PackedMatcher := ⟨false, .ofIntervals s.intervals⟩
  let viaComplement : PackedMatcher := ⟨true, .ofIntervals s.complement.intervals⟩
  if viaComplement.cost < direct.cost then viaComplement else direct

def single? (m : PackedMatcher) : Option CodeUnit :=
  match m.inverted, m.tests with
  | false, .one (.single c) => some c
  | _, _ => none

end PackedMatcher

end UnitRegex
