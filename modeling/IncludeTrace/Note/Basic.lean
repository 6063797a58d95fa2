import IncludeTrace.Tally
import IncludeTrace.Text.Terminal
import IncludeTrace.Visited

/-!
# Notes

Beside its events a trace makes *notes* on what it does, for someone who wants to
know why it does so.  A note has a level, an origin and a message.  Notes never
stop a trace.
-/

namespace IncludeTrace

/-- The importance of a note, from the most important on. -/
inductive Level where
  /-- Something is wrong. -/
  | error
  /-- Something may be wrong. -/
  | warn
  /-- The stages of a run. -/
  | info
  /-- The decisions of a run. -/
  | debug
  /-- Everything. -/
  | trace
deriving DecidableEq

namespace Level

/-- The place of a level, from one for errors to five. -/
def rank : Level → Nat
  | .error => 1
  | .warn => 2
  | .info => 3
  | .debug => 4
  | .trace => 5

/-- The name of a level. -/
def name : Level → Text
  | .error => "ERROR".toList
  | .warn => "WARN".toList
  | .info => "INFO".toList
  | .debug => "DEBUG".toList
  | .trace => "TRACE".toList

end Level

/-- Which part of the program makes a note. -/
inductive Origin where
  /-- The program as a whole. -/
  | program
  /-- The command that was asked for. -/
  | command
  /-- The walk through the files. -/
  | walk
deriving DecidableEq

/-- The name of an origin. -/
def Origin.name : Origin → Text
  | .program => "includesleuth".toList
  | .command => "includesleuth_cli".toList
  | .walk => "includesleuth_core::tracer".toList

/-- A note. -/
structure Note where
  /-- How important it is. -/
  level : Level
  /-- Who makes it. -/
  origin : Origin
  /-- What it says. -/
  message : Text
deriving DecidableEq

namespace Note

/-- The program starts. -/
def starting : Note := ⟨.info, .program, "IncludeSleuth starting".toList⟩

/-- A trace starts. -/
def traceStarts (root : Path) : Note :=
  ⟨.info, .walk, "Starting include trace of ".toList ++ root.display⟩

/-- A trace is complete. -/
def traceComplete (t : Tally) : Note :=
  ⟨.info, .walk,
    "Include trace complete: ".toList ++ Decimal.text t.filesOpened.toNat ++ " files, ".toList
      ++ Decimal.text t.includesFound.toNat ++ " includes, ".toList
      ++ Decimal.text t.errors.toNat ++ " errors".toList⟩

/-- A file was entered before. -/
def alreadyVisited (p : Path) : Note :=
  ⟨.debug, .walk, "Already visited ".toList ++ p.display ++ ", not expanding again".toList⟩

/-- A file cannot be opened. -/
def cannotOpen (p : Path) (c : Cause) : Note :=
  ⟨.debug, .walk, "Cannot open ".toList ++ p.display ++ ": ".toList ++ c.text⟩

/-- A file was scanned. -/
def scanned (p : Path) (s : Scan) : Note :=
  ⟨.debug, .walk,
    "Scanned ".toList ++ p.display ++ " (".toList ++ Decimal.text s.linesRead ++ " lines, ".toList
      ++ Decimal.text s.directives.length ++ " directives)".toList⟩

/-- A target is too deep to be followed. -/
def depthLimit (p : Path) : Note :=
  ⟨.debug, .walk, "Depth limit reached, not following ".toList ++ p.display⟩

/-- The number of files a command visited. -/
def visitedCount (v : Visited) : Note :=
  ⟨.info, .command, Decimal.text v.size ++ " distinct files visited".toList⟩

/-- A file a command visited. -/
def visitedPath (p : Path) : Note := ⟨.debug, .command, "visited ".toList ++ p.display⟩

/-- A note as a line of output, its level set right in five columns and its message without
characters a terminal would act on. -/
def line (n : Note) : Text :=
  List.replicate (5 - n.level.name.length) ' ' ++ n.level.name ++ " ".toList ++ n.origin.name
    ++ ": ".toList ++ Terminal.spelled n.message ++ "\n".toList

end Note

end IncludeTrace
