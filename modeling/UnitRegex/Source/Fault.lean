/-!
What can be wrong with a pattern, its flags or its options. A fault names the cause; its wording is
given in one place.
-/

namespace UnitRegex

inductive Fault where
  | unsupportedFlag (letter : Char)
  | repeatedFlag (letter : Char)
  | optionWithoutValue (item : String)
  | optionNotBoolean (key value : String)
  | unknownOption (key : String)
  | literalTooShort
  | literalWithoutStart
  | literalWithoutEnd
  | nothingToRepeat
  | quantifierOutOfOrder
  | incompleteQuantifier
  | loneQuantifierBracket
  | unmatchedParenthesis
  | unexpectedEnd
  | unterminatedGroup
  | invalidGroup
  | tooDeeplyNested
  | duplicateGroupName
  | invalidGroupName
  | invalidNamedReference
  | unknownGroupName
  | trailingBackslash
  | invalidEscape
  | invalidUnicodeEscape
  | invalidClassEscape
  | unterminatedClass
  | classOutOfOrder
  | invalidClass
  | astralInClass
  /-- A reason worded by whoever supplied the error. -/
  | given (reason : String)
  deriving DecidableEq

def Fault.reason : Fault → String
  | unsupportedFlag c => "unsupported regex flag: " ++ c.toString
  | repeatedFlag c => "repeated regex flag: " ++ c.toString
  | optionWithoutValue item => "expected Key=value in options: " ++ item
  | optionNotBoolean key value =>
    "option " ++ key ++ " expects true or false, got " ++ value
  | unknownOption key => "unexpected option: " ++ key
  | literalTooShort => "length must be at least 2 (//)"
  | literalWithoutStart => "pattern must start with a slash"
  | literalWithoutEnd => "pattern must end with a slash"
  | nothingToRepeat => "Nothing to repeat"
  | quantifierOutOfOrder => "numbers out of order in \x7b\x7d quantifier"
  | incompleteQuantifier => "Incomplete quantifier"
  | loneQuantifierBracket => "Lone quantifier brackets"
  | unmatchedParenthesis => "Unmatched ')'"
  | unexpectedEnd => "Unexpected end of pattern"
  | unterminatedGroup => "Unterminated group"
  | invalidGroup => "Invalid group"
  | tooDeeplyNested => "Regular expression too deeply nested"
  | duplicateGroupName => "Duplicate capture group name"
  | invalidGroupName => "Invalid capture group name"
  | invalidNamedReference => "Invalid named reference"
  | unknownGroupName => "Invalid named capture referenced"
  | trailingBackslash => "\\ at end of pattern"
  | invalidEscape => "Invalid escape"
  | invalidUnicodeEscape => "Invalid unicode escape"
  | invalidClassEscape => "Invalid class escape"
  | unterminatedClass => "Unterminated character class"
  | classOutOfOrder => "Range out of order in character class"
  | invalidClass => "Invalid character class"
  | astralInClass => "astral code points in character classes are not supported"
  | given reason => reason

/-- A fault, the pattern it belongs to and the offset at which it was noticed. -/
structure SyntaxError where
  pattern : String
  fault : Fault
  position : Nat
  deriving DecidableEq

def SyntaxError.message (e : SyntaxError) : String :=
  "Invalid regular expression: /" ++ e.pattern ++ "/: " ++ e.fault.reason

/-- The same error, reported for another pattern. -/
def SyntaxError.within (e : SyntaxError) (pattern : String) : SyntaxError :=
  { e with pattern := pattern }

end UnitRegex
