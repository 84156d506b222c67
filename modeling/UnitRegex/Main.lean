import UnitRegex.CommandLine

/-! Runs the line filter on the standard streams. -/

namespace UnitRegex.CommandLine

partial def readAll (stream : IO.FS.Stream) (bytes : ByteArray) : IO ByteArray := do
  let chunk ← stream.read 65536
  if chunk.isEmpty then return bytes else readAll stream (bytes ++ chunk)

def Report.emit (r : Report) : IO UInt32 := do
  (← IO.getStdout).putStr r.stdout
  (← IO.getStderr).putStr r.stderr
  return r.exitCode.toUInt32

end UnitRegex.CommandLine

def main (args : List String) : IO UInt32 := do
  match UnitRegex.CommandLine.prepare args with
  | .error report => report.emit
  | .ok f => (f.run (← UnitRegex.CommandLine.readAll (← IO.getStdin) .empty)).emit
