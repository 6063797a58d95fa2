import IncludeTrace.Event

/-!
# CSV rows

The form of a trace for tables: a header, then one row of seven fields for each
event.  Fields are divided by commas, and a newline ends the row.  A field with a
comma, a quote or a line break in it is put in quotes, with its own quotes
doubled; every other field stands for itself.
-/

namespace IncludeTrace

namespace Csv

/-- The byte between two fields. -/
def comma : UInt8 := 0x2C

/-- The byte around a field. -/
def quote : UInt8 := 0x22

/-- The byte behind a row. -/
def newline : UInt8 := 0x0A

/-- Whether a byte makes quotes necessary. -/
def isSpecial (b : UInt8) : Bool := b == comma || b == quote || b == 0x0D || b == newline

/-- A byte inside quotes. -/
def double (b : UInt8) : Bytes := if b = quote then [quote, quote] else [b]

/-- A field as it is written. -/
def field (t : Text) : Bytes :=
  let b := Utf8.encode t
  if b.any isSpecial then quote :: b.flatMap double ++ [quote] else b

/-- A row as it is written. -/
def row (fields : List Text) : Bytes := [comma].intercalate (fields.map field) ++ [newline]

/-- The names of the fields. -/
def header : List Text :=
  ["event", "path", "line_no", "line", "target", "quote", "message"].map String.toList

end Csv

/-- The fields for an event. -/
def Event.fields : Event → List Text
  | e@(.found p d) =>
      [e.label, p.display, Decimal.text d.lineNo, d.directive.line, d.directive.target,
        d.directive.quote.label, []]
  | e@(.failed p stage cause) => [e.label, p.display, [], [], [], [], failureMessage p stage cause]
  | e@(.enter p) | e@(.close p) => [e.label, p.display, [], [], [], [], []]

end IncludeTrace
