import UnitRegex.Engine.Basic

/-! What callers ask of an engine, and how it serves them one after the other. -/

namespace UnitRegex

namespace Engine

inductive Request where
  | compile (s : Source)
  | literal (text : String)
  | check (s : Source)
  | find (r : Regex) (text : Text) (start : Nat)

inductive Answer where
  | outcome (o : Outcome)
  | checked (c : Except SyntaxError Unit)
  | result (r : SearchResult)

/-- The source that a request has compiled. A literal that is not well formed has none. -/
def Request.source? : Request → Option Source
  | .compile s => some s
  | .literal text => (Source.ofLiteral text).toOption
  | .check _ | .find _ _ _ => none

/-- Only compilations use the engine. To check a source or to search a text leaves it alone. -/
def serve (e : Engine) : Request → Answer × Engine
  | .compile s =>
    let (o, e) := e.compile s
    (.outcome o, e)
  | .literal text =>
    let (o, e) := e.compileLiteral text
    (.outcome o, e)
  | .check s => (.checked s.check, e)
  | .find r text start => (.result (r.find text start), e)

def serveAll (e : Engine) : List Request → List Answer × Engine
  | [] => ([], e)
  | request :: rest =>
    let (answer, e) := e.serve request
    let (answers, e) := e.serveAll rest
    (answer :: answers, e)

end Engine

end UnitRegex
