import IncludeTrace.Event

/-!
# Plain lines

The form of a trace for reading: a line when a file is entered, a line for each
directive, a line when a file is closed.  A failure has no line here, since its
message goes to the other outlet in every format.
-/

namespace IncludeTrace

/-- The line for an event, if it has one. -/
def Event.plain? : Event → Option Text
  | .enter p => some ("Processing ".toList ++ p.display ++ "\n".toList)
  | .found p d =>
      some ("Found include: ".toList ++ d.directive.line ++ " in ".toList ++ p.display
        ++ "\n".toList)
  | .close p => some ("Closing ".toList ++ p.display ++ "\n".toList)
  | .failed _ _ _ => none

end IncludeTrace
