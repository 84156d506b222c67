import UnitRegex.Alphabet.CaseClasses
import UnitRegex.Alphabet.Classes
import UnitRegex.Alphabet.Display
import UnitRegex.Alphabet.Text
import UnitRegex.Source.Literal
import UnitRegex.Pattern.Shape
import UnitRegex.Pattern.GroupScan
import UnitRegex.Pattern.NameChar
import UnitRegex.Pattern.Reader
import UnitRegex.Pattern.Numbering
import UnitRegex.Automaton.Build
import UnitRegex.Table.Matcher
import UnitRegex.Automaton.Acyclic
import UnitRegex.Table.BackwardSubset
import UnitRegex.Table.ForwardSubset
import UnitRegex.Paths.PathTable
import UnitRegex.Search.Threads
import UnitRegex.Backtrack.Search
import UnitRegex.Engine.Basic
import UnitRegex.Main
import UnitRegex.Proofs.Table.PlainWalks
import UnitRegex.Proofs.Backtrack.Terminates
import UnitRegex.Proofs.Engine.Results
import UnitRegex.Proofs.Engine.Offsets
import UnitRegex.Proofs.Engine.Context
import UnitRegex.Proofs.Engine.Unfailing
import UnitRegex.Proofs.Engine.IgnoredCase
import UnitRegex.Proofs.Pattern.Groups
import UnitRegex.Proofs.Engine.Scan
import UnitRegex.Proofs.Engine.Substring
import UnitRegex.Proofs.Pattern.Indexed
import UnitRegex.Proofs.Pattern.Total
import UnitRegex.Proofs.Engine.WordCharacters
import UnitRegex.Proofs.Automaton.MustMove
import UnitRegex.Proofs.Automaton.WellFormed
import UnitRegex.Proofs.Search.Unrolling
import UnitRegex.Proofs.Table.LookRuns
import UnitRegex.Proofs.Table.PackedMatchers
import UnitRegex.Proofs.Table.SetTables
import UnitRegex.Proofs.Pattern.Bounds
import UnitRegex.Proofs.Source.Literals
import UnitRegex.Proofs.Table.Beginnings
import UnitRegex.Proofs.Table.LoopCounters
import UnitRegex.Proofs.Engine.NarrowNumbers
import UnitRegex.Proofs.Automaton.Cycles
import UnitRegex.Proofs.Search.Rounds
import UnitRegex.Proofs.Source.Faults
