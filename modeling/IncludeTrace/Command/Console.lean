import IncludeTrace.Note.Filter
import IncludeTrace.Outlet
import IncludeTrace.Report.Format
import IncludeTrace.Sink

/-!
# The console

The sink of a command.  Events go to the first outlet in the chosen format, and
the outlet is flushed behind each.  The message of a failure goes to the second
outlet first, in every format; if it cannot be written there, the first outlet is
left alone.  Notes that are to be shown go to the second outlet too, in between,
and all notes are kept.

An event is one write here.  A formatter that writes it piece by piece, or fills a
buffer first, leaves the same on the outlets (`deliverEach_alike`).
-/

namespace IncludeTrace

/-- The sink of a command. -/
structure Console where
  /-- The format of events. -/
  format : Format
  /-- Where events go. -/
  out : Outlet
  /-- Where messages and shown notes go. -/
  err : Outlet
  /-- Which notes are shown. -/
  filter : Filter
  /-- All notes, oldest first. -/
  notes : List Note
deriving DecidableEq

namespace Console

/-- A console that nothing was sent to. -/
def fresh (format : Format) (out err : Outlet) (filter : Filter) : Console :=
  ⟨format, out, err, filter, []⟩

/-- Writes some bytes to the first outlet, if there are any to write. -/
def emit (c : Console) : Option Bytes → Console × Option Cause
  | none => (c, none)
  | some b =>
      match c.out.put b with
      | (out, cause) => ({ c with out := out }, cause)

/-- Writes what stands before the first event. -/
def writeHeader (c : Console) : Console × Option Cause := c.emit c.format.header?

/-- Writes an event in the chosen format. -/
def writeEvent (c : Console) (e : Event) : Console × Option Cause := c.emit (c.format.event? e)

/-- Takes an event. -/
def accept (c : Console) (e : Event) : Console × Option Cause :=
  match e with
  | .failed p stage cause =>
      match c.err.put (Utf8.encode (Event.failureMessage p stage cause ++ ['\n'])) with
      | (err, some cause) => ({ c with err := err }, some cause)
      | (err, none) => { c with err := err }.writeEvent e
  | _ => c.writeEvent e

/-- Takes a note. -/
def note (c : Console) (n : Note) : Console :=
  let err := if c.filter.shows n then (c.err.write (Utf8.encode n.line)).1 else c.err
  { c with err := err, notes := c.notes ++ [n] }

/-- Consoles as sinks. -/
def sink : Sink Console := ⟨accept, note⟩

end Console

end IncludeTrace
