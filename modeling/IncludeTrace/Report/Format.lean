import IncludeTrace.Report.Csv
import IncludeTrace.Report.Json
import IncludeTrace.Report.Plain

/-!
# Output formats

The three forms a trace can be shown in.  A format says what is written before
the first event and what is written for each event.
-/

namespace IncludeTrace

/-- A form of output. -/
inductive Format where
  /-- Plain lines. -/
  | text
  /-- JSON lines. -/
  | json
  /-- CSV rows. -/
  | csv
deriving DecidableEq

namespace Format

/-- The format with a name. -/
def ofName? (t : Text) : Option Format :=
  if t = "text".toList then some .text
  else if t = "json".toList then some .json
  else if t = "csv".toList then some .csv
  else none

/-- What is written before the first event, if anything is. -/
def header? : Format → Option Bytes
  | .text | .json => none
  | .csv => some (Csv.row Csv.header)

/-- What is written for an event, if anything is. -/
def event? : Format → Event → Option Bytes
  | .text, e => e.plain?.map Utf8.encode
  | .json, e => some (Utf8.encode e.json)
  | .csv, e => some (Csv.row e.fields)

end Format

end IncludeTrace
