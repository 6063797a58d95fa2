import IncludeTrace.Event

/-!
# Totals

The numbers a trace ends with.  Directives and failures are counted as their
events happen (`Tally.count`), the rest as the walk decides it.  The counters are
64-bit words.  They add up over all files of a trace, so nothing bounds what they count,
and they come round to zero at `2 ^ 64`.
-/

namespace IncludeTrace

/-- The totals of a trace. -/
structure Tally where
  /-- The files that were opened. -/
  filesOpened : UInt64 := 0
  /-- The directives found in them. -/
  includesFound : UInt64 := 0
  /-- Those with a quoted target. -/
  quoted : UInt64 := 0
  /-- Those with a target in angle brackets. -/
  angle : UInt64 := 0
  /-- The references to files that were entered before. -/
  duplicates : UInt64 := 0
  /-- The quoted targets that were too deep to follow. -/
  depthLimited : UInt64 := 0
  /-- The failures. -/
  errors : UInt64 := 0
  /-- The depth of the deepest file opened.  The root has depth zero. -/
  deepest : Nat := 0
deriving DecidableEq

namespace Tally

/-- The totals after an event. -/
def count (t : Tally) : Event → Tally
  | .found _ located =>
      let t := { t with includesFound := t.includesFound + 1 }
      match located.directive.quote with
      | .quoted => { t with quoted := t.quoted + 1 }
      | .angle => { t with angle := t.angle + 1 }
  | .failed _ _ _ => { t with errors := t.errors + 1 }
  | .enter _ | .close _ => t

/-- The totals after a file was opened at a depth. -/
def opened (t : Tally) (depth : Nat) : Tally :=
  { t with filesOpened := t.filesOpened + 1, deepest := max t.deepest depth }

/-- The totals after a file was entered again. -/
def duplicate (t : Tally) : Tally := { t with duplicates := t.duplicates + 1 }

/-- The totals after a target was found too deep. -/
def limited (t : Tally) : Tally := { t with depthLimited := t.depthLimited + 1 }

/-- Whether every file could be opened and read. -/
def isClean (t : Tally) : Bool := t.errors == 0

end Tally

end IncludeTrace
