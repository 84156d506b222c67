import UnitRegex.Pattern.Arena
import UnitRegex.Pattern.Reader

/-!
Reading a pattern straight into an arena. A node is pushed as soon as its children are there, and
then named as their parent. A quantifier goes into the group that was pushed last, or into a new
group around anything else.
-/

namespace UnitRegex

/-- A node of an arena, with the node that it is a child of. -/
structure LinkedNode where
  shape : NodeShape
  parent : Option Nat := none

/-- Work on a row of nodes. -/
abbrev Growth := StateM (List LinkedNode)

namespace Growth

/-- Adds a node and gives its slot. -/
def push (shape : NodeShape) : Growth Nat := fun nodes =>
  (nodes.length, nodes ++ [{ shape := shape }])

def adopt (parent : Nat) (nodes : List LinkedNode) (child : Nat) : List LinkedNode :=
  nodes.modify child ({ · with parent := some parent })

/-- Names a node as the parent of its children. -/
def linkChildren (slot : Nat) (nodes : List LinkedNode) : List LinkedNode :=
  match nodes[slot]? with
  | some node => node.shape.children.foldl (adopt slot) nodes
  | none => nodes

def pushLinked (shape : NodeShape) : Growth Nat := do
  let slot ← push shape
  modify (linkChildren slot)
  return slot

/-- Puts a shape in the place of the shape of a node. -/
def reshape (slot : Nat) (shape : NodeShape) (nodes : List LinkedNode) : List LinkedNode :=
  nodes.modify slot ({ · with shape := shape })

/-- A node with a quantifier: in a group that has none, and in a new group around anything else,
which may match empty or not. -/
def quantifyNode (q : Quantifier) (nullable : Bool) (slot : Nat) : Option LinkedNode → Growth Nat
  | some ⟨.group branches capture none bodyNullable, _⟩ => do
    modify (reshape slot (.group branches capture (some q) bodyNullable))
    return slot
  | _ => do
    let branch ← pushLinked (.branch [slot])
    pushLinked (.group [branch] none (some q) nullable)

def quantify (q : Quantifier) (nullable : Bool) (slot : Nat) : Growth Nat := do
  quantifyNode q nullable slot (← get)[slot]?

end Growth

open Growth

mutual

/-- Pushes the nodes of a term and gives the slot of its own. -/
def Term.grow : Term → Growth Nat
  | .unit set => push (.unit set)
  | .anchor kind => push (.anchor kind)
  | .backReference n => push (.backReference n)
  | .look behind negated body => do
    let branches ← body.grow
    let group ← pushLinked (.group branches none none body.nullable)
    let ending ← push .sentinel
    pushLinked (.look behind negated group ending body)
  | .group capture repeats body => do
    let branches ← body.grow
    pushLinked (.group branches capture repeats body.nullable)

/-- Pushes the terms of a branch and gives their slots. -/
def Branch.grow : Branch → Growth (List Nat)
  | .nil => return []
  | .cons t rest => do
    let slot ← t.grow
    let slots ← rest.grow
    return slot :: slots

/-- Pushes the branches of a choice and gives their slots. -/
def Choice.grow : Choice → Growth (List Nat)
  | .one b => do
    let terms ← b.grow
    let slot ← pushLinked (.branch terms)
    return [slot]
  | .more b rest => do
    let terms ← b.grow
    let slot ← pushLinked (.branch terms)
    let slots ← rest.grow
    return slot :: slots

end

/-- A reader that pushes nodes on the way. -/
abbrev Grower := StateT (List LinkedNode) Reader

namespace Grower

def ofGrowth {α : Type} (m : Growth α) : Grower α := fun nodes => pure (m.run nodes)

instance : MonadLift Growth Grower := ⟨ofGrowth⟩

/-- The characters that are still to be read. -/
def rest : Grower (List Char) := do
  let c : Cursor ← (get : Reader Cursor)
  return c.rest

end Grower

open Reader

/-- Reads a term that no other term is read for, and pushes its nodes. -/
def growLeaf (leaf : Reader Term) : Grower (Nat × Term) := do
  let t ← leaf
  let slot ← t.grow
  return (slot, t)

/-- One atom without its quantifier; `group` reads what starts with a parenthesis. -/
def growAtom (group : Grower (Nat × Term)) : Grower (Nat × Term) := do
  match ← Grower.rest with
  | '(' :: _ => group
  | _ => growLeaf (readAtom (fail .unmatchedParenthesis))

/-- An assertion, or an atom with its quantifier. -/
def growTerm (group : Grower (Nat × Term)) : Grower (Nat × Term) := do
  match ← Grower.rest with
  | '^' :: rest => growLeaf (readAnchor .caret rest)
  | '$' :: rest => growLeaf (readAnchor .dollar rest)
  | '\\' :: 'b' :: rest => growLeaf (readAnchor .wordBoundary rest)
  | '\\' :: 'B' :: rest => growLeaf (readAnchor .notWordBoundary rest)
  | _ =>
    let (slot, atom) ← growAtom group
    match ← readQuantifier with
    | none => return (slot, atom)
    | some q =>
      let s : Setting ← (read : Reader Setting)
      if atom.isLookBehind || (s.flags.unicode && atom.isLook) then
        (fail .nothingToRepeat : Reader (Nat × Term))
      else
        let slot ← quantify q (Choice.one (.cons atom .nil)).nullable slot
        return (slot, atom.repeated q)

/-- The terms up to a bar, a closing parenthesis or the end. -/
def growTerms (group : Grower (Nat × Term)) :
    List Char → List (Nat × Term) → Grower (List Nat × Branch)
  | [], terms => return (terms.reverse.map (·.1), Branch.ofList (terms.reverse.map (·.2)))
  | _ :: ahead, terms => do
    match ← Grower.rest with
    | [] | '|' :: _ | ')' :: _ =>
      return (terms.reverse.map (·.1), Branch.ofList (terms.reverse.map (·.2)))
    | _ =>
      let t ← growTerm group
      growTerms group ahead (t :: terms)

/-- Branches separated by bars. -/
def growBranches (group : Grower (Nat × Term)) : List Char → Grower (List Nat × Choice)
  | [] => do
    let slot ← pushLinked (.branch [])
    return ([slot], .one .nil)
  | _ :: ahead => do
    let (terms, branch) ← growTerms group (← Grower.rest) []
    let slot ← pushLinked (.branch terms)
    if ← accept '|' then
      let (slots, rest) ← growBranches group ahead
      return (slot :: slots, .more branch rest)
    else return ([slot], .one branch)

def growChoice (group : Grower (Nat × Term)) : Grower (List Nat × Choice) := do
  growBranches group ('|' :: (← Grower.rest))

/-- A group around a choice. -/
def growCapture (choice : Grower (List Nat × Choice)) (capture : Option Nat) :
    Grower (Nat × Term) := do
  let (branches, body) ← choice
  let slot ← pushLinked (.group branches capture none body.nullable)
  return (slot, .group capture none body)

/-- A look-around, which has a group of its own around its body and a sentinel behind that. -/
def growLook (choice : Grower (List Nat × Choice)) (behind negated : Bool) :
    Grower (Nat × Term) := do
  let (branches, body) ← choice
  let group ← pushLinked (.group branches none none body.nullable)
  let ending ← push .sentinel
  let slot ← pushLinked (.look behind negated group ending body)
  if behind then
    match body.soleSequence? with
    | some sets => widenContext sets.length
    | none => pure ()
  return (slot, .look behind negated body)

/-- What stands between a pair of parentheses; the opening one is already consumed. -/
def growGroupBody (choice : Grower (List Nat × Choice)) : Grower (Nat × Term) := do
  match ← Grower.rest with
  | '?' :: ':' :: rest => do moveTo rest; growCapture choice none
  | '?' :: '=' :: rest => do moveTo rest; growLook choice false false
  | '?' :: '!' :: rest => do moveTo rest; growLook choice false true
  | '?' :: '<' :: '=' :: rest => do moveTo rest; growLook choice true false
  | '?' :: '<' :: '!' :: rest => do moveTo rest; growLook choice true true
  | '?' :: '<' :: rest =>
    moveTo rest
    let name ← readGroupName
    let c : Cursor ← (get : Reader Cursor)
    if c.named.any (·.1 == name) then (fail .duplicateGroupName : Reader (Nat × Term))
    else
      let n ← newGroup
      (modify fun c => { c with named := c.named ++ [(name, n)] } : Reader Unit)
      growCapture choice (some n)
  | '?' :: rest =>
    moveTo rest.tail
    (fail .invalidGroup : Reader (Nat × Term))
  | _ =>
    let n ← newGroup
    growCapture choice (some n)

/-- Reads a parenthesized term in which `depth - 1` more parentheses may be open at a time. -/
def growGroup : Nat → Grower (Nat × Term)
  | 0 => (fail .tooDeeplyNested : Reader (Nat × Term))
  | depth + 1 => do
    let opening ← Grower.rest
    discard <| accept '('
    let t ← growGroupBody (growChoice (growGroup depth))
    if ← accept ')' then return t
    else
      let s ← (read : Reader Setting)
      (throw (.unterminatedGroup, s.length - opening.length) : Reader (Nat × Term))

/-- The whole pattern as group 0, with a sentinel behind it and a parent of both. Gives the slots of
the root and of its parent. -/
def growPattern : Grower (Nat × Nat) := do
  let (root, _) ← growCapture (growChoice (growGroup nestingLimit)) (some 0)
  if (← Grower.rest).isEmpty then
    let ending ← push .sentinel
    let rootParent ← pushLinked (.rootParent root ending)
    return (root, rootParent)
  else (fail .unmatchedParenthesis : Reader (Nat × Nat))

/-- An arena whose nodes know their parents. -/
structure LinkedArena extends Arena where
  parents : List (Option Nat)

/-- Reads a source into an arena. -/
def Source.grow (s : Source) : Except SyntaxError LinkedArena :=
  let chars := s.pattern.toList
  let setting : Setting := ⟨s.flags, chars.length, scanGroups chars⟩
  match (((growPattern.run []).run setting).run { rest := chars }) with
  | .error (fault, position) => .error ⟨s.pattern, fault, position⟩
  | .ok (((root, rootParent), nodes), cursor) =>
    .ok
      { shapes := nodes.map (·.shape)
        parents := nodes.map (·.parent)
        root := root
        rootParent := rootParent
        flags := s.flags
        groupCount := setting.groups.count + 1
        context := cursor.context }

end UnitRegex
