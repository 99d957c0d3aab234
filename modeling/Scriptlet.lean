import Scriptlet.Arithmetic
import Scriptlet.Command.Options
import Scriptlet.Command.Path
import Scriptlet.Command.Run
import Scriptlet.Command.Usage
import Scriptlet.Command.Workspace
import Scriptlet.Decimal.Binary64
import Scriptlet.Decimal.Notation
import Scriptlet.Decimal.Numeral
import Scriptlet.Decimal.Rounding
import Scriptlet.Decimal.Shortest
import Scriptlet.Evaluator
import Scriptlet.Fault
import Scriptlet.Json.Basic
import Scriptlet.Json.Reader
import Scriptlet.Json.Shown
import Scriptlet.Json.Writer
import Scriptlet.Machine
import Scriptlet.Main
import Scriptlet.Name
import Scriptlet.Parser.Cursor
import Scriptlet.Parser.Error
import Scriptlet.Parser.Statement
import Scriptlet.Proofs.Grammar
import Scriptlet.Proofs.Reading
import Scriptlet.Scope
import Scriptlet.Session
import Scriptlet.Shell
import Scriptlet.Step
import Scriptlet.Text.Blank
import Scriptlet.Text.Digit
import Scriptlet.Text.Lines
import Scriptlet.Text.Printable
import Scriptlet.Text.Quoted
import Scriptlet.Text.Utf8
import Scriptlet.Token.Basic
import Scriptlet.Token.Stream
import Scriptlet.Trace
import Scriptlet.Tree.Basic
import Scriptlet.Tree.Codec
import Scriptlet.Tree.Outline
import Scriptlet.Value.Basic
import Scriptlet.Value.Shown
import Scriptlet.Proofs.ParserSoundness
import Scriptlet.Proofs.ParserCompleteness
import Scriptlet.Proofs.Contract
import Scriptlet.Proofs.ParserProgress
import Scriptlet.Proofs.ParserGrammar
import Scriptlet.Proofs.WellFormed
import Scriptlet.Proofs.Frame
import Scriptlet.Proofs.Visits
import Scriptlet.Proofs.SafeValues
import Scriptlet.Proofs.TypeSafety
import Scriptlet.Proofs.Runs
import Scriptlet.Proofs.Atomicity
import Scriptlet.Proofs.Chains
import Scriptlet.Proofs.StackEvaluator
import Scriptlet.Proofs.DynamicScoping
import Scriptlet.Proofs.ScopingModes
import Scriptlet.Proofs.Tokenization
import Scriptlet.Proofs.JsonRoundTrip
import Scriptlet.Proofs.SavedTrees
import Scriptlet.Proofs.Files
import Scriptlet.Proofs.SavedRuns
import Scriptlet.Proofs.ParserImage
import Scriptlet.Proofs.Agenda
import Scriptlet.Proofs.ParserErrors
import Scriptlet.Proofs.ViablePrefixes
import Scriptlet.Proofs.OpenBlocks
import Scriptlet.Proofs.Continuation
import Scriptlet.Proofs.ShellLines
import Scriptlet.Proofs.FlawedTrees
import Scriptlet.Proofs.TreeFiles
import Scriptlet.Proofs.ParserFuel
import Scriptlet.Proofs.Appending
import Scriptlet.Proofs.Transcripts
import Scriptlet.Proofs.Interactive
import Scriptlet.Proofs.ShellRuns
import Scriptlet.Proofs.ShellErrors
import Scriptlet.Proofs.ScopeHistory
import Scriptlet.Proofs.Tracing
import Scriptlet.Proofs.TreeCodec
import Scriptlet.Proofs.HostFunctions
import Scriptlet.Proofs.CursorScanning
import Scriptlet.Proofs.Strategies
import Scriptlet.Proofs.Concatenation
import Scriptlet.Proofs.ParameterLists
import Scriptlet.Proofs.ParserCalls
import Scriptlet.Proofs.Layout
import Scriptlet.Proofs.Lookahead
import Scriptlet.Proofs.ScopeDepth
import Scriptlet.Proofs.Repetition
import Scriptlet.Proofs.Termination
import Scriptlet.Proofs.Magnitudes
import Scriptlet.Proofs.Outlines
import Scriptlet.Proofs.Rounding
import Scriptlet.Proofs.ShortestDecimals
import Scriptlet.Proofs.DecimalTexts
import Scriptlet.Proofs.PrintedNumbers
import Scriptlet.Proofs.JoinedLines
import Scriptlet.Proofs.Courses
import Scriptlet.Proofs.Deeds
import Scriptlet.Proofs.InputLines
import Scriptlet.Proofs.CallTraces
import Scriptlet.Proofs.FunctionIdentity
import Scriptlet.Proofs.PlainNumbers
import Scriptlet.Proofs.Disciplines
