/-!
A first pass over a pattern that counts its capture groups and lists the names of the named ones.
It only has to tell parentheses from their escaped and bracketed look-alikes.
-/

namespace UnitRegex

structure GroupScan where
  count : Nat := 0
  names : List (String × Nat) := []

/-- Notes the parenthesis in front of `rest`, if it opens a capture group. -/
def GroupScan.note (scan : GroupScan) (rest : List Char) : GroupScan :=
  match rest with
  | '?' :: '<' :: '=' :: _ => scan
  | '?' :: '<' :: '!' :: _ => scan
  | '?' :: '<' :: more =>
    let name := String.ofList (more.takeWhile (· != '>'))
    ⟨scan.count + 1, scan.names ++ [(name, scan.count + 1)]⟩
  | '?' :: _ => scan
  | _ => { scan with count := scan.count + 1 }

def GroupScan.run (scan : GroupScan) (inClass : Bool) : List Char → GroupScan
  | [] => scan
  | '\\' :: [] => scan
  | '\\' :: _ :: rest => scan.run inClass rest
  | '[' :: rest => scan.run true rest
  | ']' :: rest => scan.run false rest
  | '(' :: rest => if inClass then scan.run inClass rest else (scan.note rest).run inClass rest
  | _ :: rest => scan.run inClass rest

def scanGroups (chars : List Char) : GroupScan := GroupScan.run {} false chars

end UnitRegex
