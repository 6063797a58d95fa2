import IncludeTrace.Cause
import IncludeTrace.Command.Console
import IncludeTrace.Command.Help
import IncludeTrace.Command.Run
import IncludeTrace.Command.Settings
import IncludeTrace.Command.Usage
import IncludeTrace.Directive
import IncludeTrace.Event
import IncludeTrace.FileSystem
import IncludeTrace.LineStream
import IncludeTrace.Main
import IncludeTrace.Note.Basic
import IncludeTrace.Note.Filter
import IncludeTrace.Note.Rule
import IncludeTrace.Outlet
import IncludeTrace.Path.Basic
import IncludeTrace.Path.Normal
import IncludeTrace.Path.Order
import IncludeTrace.Proofs.Account
import IncludeTrace.Proofs.Asking
import IncludeTrace.Proofs.Budget
import IncludeTrace.Proofs.CommandLine
import IncludeTrace.Proofs.Content
import IncludeTrace.Proofs.CsvReader
import IncludeTrace.Proofs.Cutoff
import IncludeTrace.Proofs.Decoding
import IncludeTrace.Proofs.DepthLimit
import IncludeTrace.Proofs.Encoding
import IncludeTrace.Proofs.ExitCode
import IncludeTrace.Proofs.Formats
import IncludeTrace.Proofs.Framing
import IncludeTrace.Proofs.Grammar
import IncludeTrace.Proofs.HigherLimit
import IncludeTrace.Proofs.Joining
import IncludeTrace.Proofs.JsonReader
import IncludeTrace.Proofs.Lines
import IncludeTrace.Proofs.LinkFree
import IncludeTrace.Proofs.Locality
import IncludeTrace.Proofs.Move
import IncludeTrace.Proofs.Nesting
import IncludeTrace.Proofs.NormalForm
import IncludeTrace.Proofs.Outcome
import IncludeTrace.Proofs.Pieces
import IncludeTrace.Proofs.Reach
import IncludeTrace.Proofs.Recursion
import IncludeTrace.Proofs.Relocation
import IncludeTrace.Proofs.Rendering
import IncludeTrace.Proofs.Resolution
import IncludeTrace.Proofs.Roots
import IncludeTrace.Proofs.Session
import IncludeTrace.Proofs.Signal
import IncludeTrace.Proofs.Stack
import IncludeTrace.Proofs.Termination
import IncludeTrace.Proofs.TextLines
import IncludeTrace.Proofs.Totals
import IncludeTrace.Proofs.VisitedSet
import IncludeTrace.Proofs.Wraparound
import IncludeTrace.Report.Csv
import IncludeTrace.Report.Format
import IncludeTrace.Report.Json
import IncludeTrace.Report.Plain
import IncludeTrace.Report.Totals
import IncludeTrace.Scan
import IncludeTrace.Sink
import IncludeTrace.Tally
import IncludeTrace.Text.Alphanumeric
import IncludeTrace.Text.Blank
import IncludeTrace.Text.Decimal
import IncludeTrace.Text.Pattern
import IncludeTrace.Text.Terminal
import IncludeTrace.Text.Utf8
import IncludeTrace.Tree
import IncludeTrace.Visited
import IncludeTrace.Walk
