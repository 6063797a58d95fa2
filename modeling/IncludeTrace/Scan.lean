import IncludeTrace.Directive
import IncludeTrace.LineStream

/-!
# Scanning a file

A *scan* reads a file from its first line to its end, or to the first read that
fails, and keeps the directives with the numbers of their lines.  Lines count
from one.  What was found before a failure is kept.

A line takes up at least one byte, so there are no more lines than bytes
(`Scan.lineNo_le_linesRead`, `Scan.linesRead_le_length`).  The size of a file fits into
a 64-bit word, and so do the numbers of its lines.  They are plain numbers here, since
they cannot overflow.
-/

namespace IncludeTrace

/-- A directive and the line it stands on. -/
structure Located where
  /-- The number of the line, from one. -/
  lineNo : Nat
  /-- The directive. -/
  directive : Directive
deriving DecidableEq

/-- What a file was found to hold. -/
structure Scan where
  /-- The directives, in the order of their lines. -/
  directives : List Located
  /-- The number of lines read. -/
  linesRead : Nat
  /-- Why the reading ended early, if it did. -/
  fault : Option Cause
deriving DecidableEq

namespace Scan

/-- The directives among some lines that are numbered from `first` on. -/
def locate (first : Nat) (lines : List Text) : List Located :=
  (lines.zipIdx first).filterMap fun (line, n) => (Directive.ofLine? line).map (⟨n, ·⟩)

/-- The lines in front of the first failure. -/
def linesOf (items : List LineItem) : List Text :=
  (items.takeWhile Except.isOk).filterMap Except.toOption

/-- The first failure. -/
def faultOf? (items : List LineItem) : Option Cause :=
  items.findSome? fun
    | .ok _ => none
    | .error c => some c

/-- The scan of the items of a stream. -/
def ofItems (items : List LineItem) : Scan :=
  let lines := linesOf items
  ⟨locate 1 lines, lines.length, faultOf? items⟩

/-- The scan of a file. -/
def ofDeliveries (ds : List Delivery) : Scan := ofItems (LineStream.ofDeliveries ds).items

end Scan

end IncludeTrace
