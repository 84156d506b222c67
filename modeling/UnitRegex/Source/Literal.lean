import UnitRegex.Source.Flags
import UnitRegex.Source.Options

/-!
A pattern with its flags and options, and the literal form `options/pattern/flags`. The pattern of
a literal reaches from the first slash to the last one, so it may hold slashes itself.
-/

namespace UnitRegex

structure Source where
  pattern : String
  flags : Flags := {}
  options : Options := {}
  deriving DecidableEq

namespace Source

def ofParts (pattern flags : String) : Except SyntaxError Source :=
  match Flags.parse flags with
  | .error e => .error (e.within pattern)
  | .ok f => .ok { pattern := pattern, flags := f }

/-- Cuts a list at its last slash. -/
def cutLast? (chars : List Char) : Option (List Char × List Char) :=
  match chars.reverse.dropWhile (· != '/') with
  | [] => none
  | _ :: front => some (front.reverse, (chars.reverse.takeWhile (· != '/')).reverse)

def ofLiteral (literal : String) : Except SyntaxError Source :=
  let chars := literal.toList
  if chars.length < 2 then .error ⟨literal, .literalTooShort, 0⟩
  else
    match chars.dropWhile (· != '/') with
    | [] => .error ⟨literal, .literalWithoutStart, 0⟩
    | _ :: body =>
      match cutLast? body with
      | none => .error ⟨literal, .literalWithoutEnd, literal.utf8ByteSize⟩
      | some (pattern, flags) =>
        let pattern := String.ofList pattern
        match Flags.parse (String.ofList flags) with
        | .error e => .error (e.within pattern)
        | .ok f =>
          match Options.parse (String.ofList (chars.takeWhile (· != '/'))) with
          | .error e => .error (e.within pattern)
          | .ok o => .ok ⟨pattern, f, o⟩

def display (s : Source) : String := "/" ++ s.pattern ++ "/" ++ s.flags.display

end Source

end UnitRegex
