import UnitRegex.Source.Fault

/-! The six flags of a pattern, written as one letter each and at most once. -/

namespace UnitRegex

inductive Flag where
  | global | ignoreCase | multiline | dotAll | unicode | sticky
  deriving DecidableEq

namespace Flag

/-- All flags, in the order in which they are written. -/
def all : List Flag := [global, ignoreCase, multiline, dotAll, unicode, sticky]

def letter : Flag → Char
  | global => 'g'
  | ignoreCase => 'i'
  | multiline => 'm'
  | dotAll => 's'
  | unicode => 'u'
  | sticky => 'y'

def ofLetter? (c : Char) : Option Flag := all.find? (·.letter == c)

end Flag

structure Flags where
  global : Bool := false
  ignoreCase : Bool := false
  multiline : Bool := false
  dotAll : Bool := false
  unicode : Bool := false
  sticky : Bool := false
  deriving DecidableEq

namespace Flags

def has (f : Flags) : Flag → Bool
  | .global => f.global
  | .ignoreCase => f.ignoreCase
  | .multiline => f.multiline
  | .dotAll => f.dotAll
  | .unicode => f.unicode
  | .sticky => f.sticky

def insert (f : Flags) : Flag → Flags
  | .global => { f with global := true }
  | .ignoreCase => { f with ignoreCase := true }
  | .multiline => { f with multiline := true }
  | .dotAll => { f with dotAll := true }
  | .unicode => { f with unicode := true }
  | .sticky => { f with sticky := true }

def read (f : Flags) (position : Nat) : List Char → Except SyntaxError Flags
  | [] => .ok f
  | c :: rest =>
    match Flag.ofLetter? c with
    | none => .error ⟨"", .unsupportedFlag c, position⟩
    | some flag =>
      if f.has flag then .error ⟨"", .repeatedFlag c, position⟩
      else read (f.insert flag) (position + 1) rest

def parse (s : String) : Except SyntaxError Flags := read {} 0 s.toList

def letters (f : Flags) : List Char := (Flag.all.filter f.has).map Flag.letter

def display (f : Flags) : String := String.ofList f.letters

end Flags

end UnitRegex
