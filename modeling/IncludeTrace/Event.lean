import IncludeTrace.Path.Basic
import IncludeTrace.Scan

/-!
# Events

What a trace reports, in the order in which it happens.  A file is entered
whenever it is referred to, also when it was entered before.  Its directives
follow, with the events of the files they lead to between them, and then it is
closed.  A file that cannot be opened fails and is not closed.  One that cannot
be read to its end fails just before it is closed.
-/

namespace IncludeTrace

/-- What was being done with a file that failed. -/
inductive Stage where
  /-- The file could not be opened. -/
  | opening
  /-- The file could not be read to its end. -/
  | reading
deriving DecidableEq

/-- The label of a stage in structured output. -/
def Stage.label : Stage → Text
  | .opening => "open".toList
  | .reading => "read".toList

/-- The word for a stage in messages. -/
def Stage.verb : Stage → Text
  | .opening => "opening".toList
  | .reading => "reading".toList

/-- One thing that happens in a trace. -/
inductive Event where
  /-- A file is referred to. -/
  | enter (path : Path)
  /-- A file has a directive on a line. -/
  | found (path : Path) (located : Located)
  /-- A file could not be opened or read. -/
  | failed (path : Path) (stage : Stage) (cause : Cause)
  /-- All directives of a file are dealt with. -/
  | close (path : Path)
deriving DecidableEq

namespace Event

/-- The file an event is about. -/
def path : Event → Path
  | .enter p | .found p _ | .failed p _ _ | .close p => p

/-- The label of an event in structured output. -/
def label : Event → Text
  | .enter _ => "enter".toList
  | .found _ _ => "found".toList
  | .failed _ _ _ => "error".toList
  | .close _ => "close".toList

/-- The message about a file that failed. -/
def failureMessage (p : Path) (stage : Stage) (cause : Cause) : Text :=
  "Error ".toList ++ stage.verb ++ " file ".toList ++ p.display ++ ": ".toList ++ cause.text

end Event

end IncludeTrace
