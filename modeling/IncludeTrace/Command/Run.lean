import IncludeTrace.Command.Console
import IncludeTrace.Command.Help
import IncludeTrace.Command.Settings
import IncludeTrace.Report.Totals
import IncludeTrace.Walk

/-!
# Running a command

A run writes the header of its format, traces the file, makes notes on the paths
it visited, and reports the totals if asked to.  Files that fail do not stop a run;
output that fails does.

`run` does this with settings and a console.  `execute` begins with a command line
and ends with an exit code, as the program does.
-/

namespace IncludeTrace

/-- How the program ends. -/
inductive Exit where
  /-- Every file was opened and read. -/
  | success
  /-- Some file was not. -/
  | failures
  /-- The command line was wrong. -/
  | usage
  /-- The output could not be written. -/
  | output
deriving DecidableEq

namespace Exit

/-- The exit code. -/
def code : Exit → Nat
  | .success => 0
  | .failures => 1
  | .usage => 2
  | .output => 3

/-- How a trace with some totals ends. -/
def ofTally (t : Tally) : Exit := if t.isClean then .success else .failures

/-- How a command line ends that does not lead to a run. -/
def ofUsage (u : Usage) : Exit := if u.isError then .usage else .success

end Exit

namespace Command

/-- Why the output of a run ends early. -/
inductive Failure where
  /-- The header could not be written. -/
  | header (cause : Cause)
  /-- An event of the trace of a file could not be written. -/
  | trace (file : Path) (cause : Cause)
  /-- The totals could not be written. -/
  | totals (cause : Cause)
deriving DecidableEq

/-- The message about a failure, from the outermost reason to the innermost. -/
def Failure.message : Failure → Text
  | .header c => "failed to write trace header: ".toList ++ c.text
  | .trace file c =>
      "trace of ".toList ++ file.display ++ " aborted: ".toList ++ Sink.refusalMessage c
        ++ ": ".toList ++ c.text
  | .totals c => "failed to write summary: ".toList ++ c.text

/-- The end of a run. -/
structure Ending where
  /-- The console as it was left. -/
  console : Console
  /-- The totals, or why the output ended early. -/
  result : Except Failure Tally

/-- How the program ends after a run. -/
def Ending.exit (e : Ending) : Exit :=
  match e.result with
  | .error _ => .output
  | .ok t => .ofTally t

/-- What a trace works with in a run. -/
def context (files : FileSystem) (s : Settings) : Walk.Context Console :=
  ⟨files, Console.sink, s.maxDepth⟩

/-- The end of a run whose trace was refused an event. -/
def abort (s : Settings) (stop : Walk Console × Cause) : Ending :=
  ⟨stop.1.sink, .error (.trace s.file stop.2)⟩

/-- The notes on the paths a run visited. -/
def visitedNotes (v : Visited) : List Note := .visitedCount v :: v.sorted.map .visitedPath

/-- The end of a run whose trace is complete. -/
def conclude (s : Settings) (w : Walk Console) : Ending :=
  let console := (visitedNotes w.visited).foldl Console.note w.sink
  if s.summary then
    match console.err.put (Utf8.encode w.tally.report) with
    | (err, none) => ⟨{ console with err := err }, .ok w.tally⟩
    | (err, some c) => ⟨{ console with err := err }, .error (.totals c)⟩
  else ⟨console, .ok w.tally⟩

/-- A run.  No result if `fuel` steps do not suffice for the trace. -/
def run (files : FileSystem) (fuel : Nat) (s : Settings) (console : Console) : Option Ending :=
  match console.writeHeader with
  | (console, some cause) => some ⟨console, .error (.header cause)⟩
  | (console, none) =>
      match Walk.trace (context files s) fuel s.file .empty console with
      | none => none
      | some (.error stop) => some (abort s stop)
      | some (.ok w) => some (conclude s w)

/-- The console the program begins with. -/
def console (s : Settings) (wish : Option Text) (out err : Outlet) : Console :=
  (Console.fresh s.format out err (.choose s.verbose wish)).note .starting

/-- Adds the message about a failure. -/
def Ending.explain (e : Ending) : Ending :=
  match e.result with
  | .ok _ => e
  | .error f =>
      let line := "includesleuth: ".toList ++ f.message ++ ['\n']
      { e with console := { e.console with err := (e.console.err.write (Utf8.encode line)).1 } }

/-- The end of a command line that does not lead to a run. -/
structure Declined where
  /-- Why it does not. -/
  usage : Usage
  /-- The first outlet as it was left. -/
  out : Outlet
  /-- The second outlet as it was left. -/
  err : Outlet

/-- Prints why a command line does not lead to a run: what was asked for to the first outlet, and
what is wrong to the second.  That it cannot be printed changes nothing. -/
def decline (u : Usage) (out err : Outlet) : Declined :=
  let text := Utf8.encode u.output
  if u.isError then ⟨u, out, (err.write text).1⟩ else ⟨u, (out.write text).1, err⟩

/-- The program from its command line to its end.  `wish` is what the environment says about the
notes to show. -/
def execute (files : FileSystem) (fuel : Nat) (args : List Bytes) (wish : Option Text)
    (out err : Outlet) : Except Declined (Option Ending) :=
  match Settings.ofArguments args with
  | .error u => .error (decline u out err)
  | .ok s => .ok ((run files fuel s (console s wish out err)).map Ending.explain)

end Command

end IncludeTrace
