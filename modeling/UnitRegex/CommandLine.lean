import UnitRegex.Engine.Basic

/-!
The line filter: prints the lines of its input that match a pattern, or only the parts that do. The
exit code is 0 if a line matched, 1 if none did or something went wrong, and 2 for a pattern with a
syntax error.
-/

namespace UnitRegex.CommandLine

structure Arguments where
  pattern : String
  flags : String
  onlyMatching : Bool
  deriving DecidableEq

inductive Failure where
  | patternMissing
  | patternExpected
  | flagsExpected
  | unexpectedArgument (argument : String)
  | invalidInput
  deriving DecidableEq

def Failure.message : Failure → String
  | patternMissing => "Expected first argument to be '-E'"
  | patternExpected => "-E expects a pattern"
  | flagsExpected => "-f expects flags"
  | unexpectedArgument a => "unexpected argument '" ++ a ++ "'"
  | invalidInput =>
    "failed to read standard input\n\nCaused by:\n    stream did not contain valid UTF-8"

/-- Reads the arguments from left to right. Of two patterns the later one counts, and likewise of
two sets of flags. -/
def readArguments (pattern : Option String) (flags : String) (onlyMatching : Bool) :
    List String → Except Failure Arguments
  | [] =>
    match pattern with
    | some p => .ok ⟨p, flags, onlyMatching⟩
    | none => .error .patternMissing
  | "-E" :: rest =>
    match rest with
    | p :: rest => readArguments (some p) flags onlyMatching rest
    | [] => .error .patternExpected
  | "-f" :: rest =>
    match rest with
    | f :: rest => readArguments pattern f onlyMatching rest
    | [] => .error .flagsExpected
  | a :: rest =>
    if a = "-o" ∨ a = "--only-matching" then readArguments pattern flags true rest
    else .error (.unexpectedArgument a)

def Arguments.parse (args : List String) : Except Failure Arguments :=
  readArguments none "" false args

/-- What a run leaves behind. -/
structure Report where
  exitCode : UInt8
  stdout : String
  stderr : String
  deriving DecidableEq

/-- Takes one line feed off the end, together with a carriage return in front of it. -/
def stripLineEnd (line : List UInt8) : List UInt8 :=
  match line.reverse with
  | 10 :: 13 :: rest => rest.reverse
  | 10 :: rest => rest.reverse
  | _ => line

/-- Cuts bytes behind every line feed. -/
def splitLines (bytes : List UInt8) : List (List UInt8) := bytes.splitBy fun b _ => b != 10

/-- The lines of an input; `none` stands for one that is not UTF-8. -/
def decodeLines (input : ByteArray) : List (Option String) :=
  (splitLines input.toList).map fun line => String.fromUTF8? ⟨(stripLineEnd line).toArray⟩

/-- The parts of a text that match, without the empty ones. -/
def matchingParts (text : Text) (results : List SearchResult) : List String :=
  (results.filterMap (·.group? 0)).filterMap fun (lo, hi) =>
    if lo < hi then some (text.slice lo hi) else none

/-- What is printed for a line, if it matches. -/
def answer? (r : Regex) (onlyMatching : Bool) (line : String) : Option (List String) :=
  let text := Text.ofString line
  if onlyMatching then
    let results := r.matchesFrom text 0
    if results.isEmpty then none else some (matchingParts text results)
  else ((r.find text 0).group? 0).map fun _ => [line]

structure LineFilter where
  regex : Regex
  onlyMatching : Bool

def failed (stdout : String) (f : Failure) : Report :=
  ⟨1, stdout, "Error: " ++ f.message ++ "\n"⟩

/-- Compiles the pattern of the arguments; a report means that there is nothing to search. -/
def prepare (args : List String) : Except Report LineFilter :=
  match Arguments.parse args with
  | .error f => .error (failed "" f)
  | .ok a =>
    let outcome := do (Engine.ofConfig {}).compile (← Source.ofParts a.pattern a.flags) |>.1
    match outcome with
    | .error e => .error ⟨2, "", e.message ++ "\n"⟩
    | .ok r => .ok ⟨r, a.onlyMatching⟩

/-- Searches the lines in order, up to one that cannot be read. -/
def LineFilter.run (f : LineFilter) (input : ByteArray) : Report :=
  let lines := decodeLines input
  let readable := (lines.takeWhile (·.isSome)).filterMap id
  let answers := readable.filterMap (answer? f.regex f.onlyMatching)
  let stdout := String.join (answers.flatten.map (· ++ "\n"))
  if lines.all (·.isSome) then ⟨if answers.isEmpty then 1 else 0, stdout, ""⟩
  else failed stdout .invalidInput

def run (args : List String) (input : ByteArray) : Report :=
  match prepare args with
  | .error report => report
  | .ok f => f.run input

end UnitRegex.CommandLine
