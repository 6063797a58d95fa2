import IncludeTrace.LineStream
import IncludeTrace.Path.Basic

/-!
# File systems

To a trace a file system is what opening a path gives: a failure, or the
deliveries of the file's bytes.
-/

namespace IncludeTrace

/-- What opening each path gives. -/
abbrev FileSystem := Path → Except Cause (List Delivery)

end IncludeTrace
