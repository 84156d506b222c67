import UnitRegex.Source.Fault

/-! Options in front of a pattern literal: items `Key=true` or `Key=false`, separated by commas. -/

namespace UnitRegex

structure Options where
  forceFallback : Bool := false
  deriving DecidableEq

namespace Options

/-- The parts of a list between its commas. -/
def items : List Char → List (List Char)
  | [] => [[]]
  | c :: rest =>
    if c = ',' then [] :: items rest
    else
      match items rest with
      | [] => [[c]]
      | item :: more => (c :: item) :: more

def boolean? (value : List Char) : Option Bool :=
  if value = "true".toList then some true
  else if value = "false".toList then some false
  else none

/-- Reads one item that starts at `position`. A wrong value is reported behind the key, whose
length counts in UTF-8 bytes. -/
def readItem (o : Options) (position : Nat) (item : List Char) : Except SyntaxError Options :=
  let key := item.takeWhile (· != '=')
  match item.dropWhile (· != '=') with
  | [] => .error ⟨"", .optionWithoutValue (String.ofList item), position⟩
  | _ :: value =>
    match boolean? value with
    | none =>
      .error ⟨"", .optionNotBoolean (String.ofList key) (String.ofList value),
        position + (String.ofList key).utf8ByteSize + 1⟩
    | some b =>
      if key = "ForceFallback".toList then .ok { o with forceFallback := b }
      else .error ⟨"", .unknownOption (String.ofList key), position⟩

def readItems (o : Options) (position : Nat) : List (List Char) → Except SyntaxError Options
  | [] => .ok o
  | item :: rest =>
    match o.readItem position item with
    | .error e => .error e
    | .ok p => readItems p (position + item.length + 1) rest

def parse (s : String) : Except SyntaxError Options :=
  if s.isEmpty then .ok {} else readItems {} 0 (items s.toList)

end Options

end UnitRegex
