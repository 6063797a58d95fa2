import IncludeTrace.Cause

/-!
# Outlets

An outlet is where output goes.  It may have room for a number of bytes only: a
write that does not fit is taken as far as it fits, and fails.  It may also fail
at one of its flushes.  So what an outlet holds is always the beginning of what
was written to it.

How the bytes are cut into writes makes no difference to what an outlet holds or
how it answers (`Outlet.putEach_alike`).  Nothing is added by trying again to write what
did not fit (`Outlet.write_alike_of_failed`).
-/

namespace IncludeTrace

/-- A place for output. -/
structure Outlet where
  /-- What was written and fitted, newest first. -/
  pieces : List Bytes
  /-- The number of bytes it still takes, if there is a limit. -/
  room : Option Nat
  /-- How a write fails that does not fit. -/
  full : Cause
  /-- The number of flushes that succeed before one fails, if one is to fail. -/
  flushes : Option Nat
deriving DecidableEq

namespace Outlet

/-- How a flush fails. -/
def flushFailed : Cause := .custom "flush failed".toList

/-- How a write fails on a full outlet. -/
def diskFull : Cause := .custom "disk full".toList

/-- How a write fails on an outlet that takes no byte and says nothing. -/
def writeZero : Cause := .custom "failed to write whole buffer".toList

/-- The outlet that never fails. -/
def unlimited : Outlet := ⟨[], none, diskFull, none⟩

/-- The bytes an outlet holds. -/
def written (o : Outlet) : Bytes := o.pieces.reverse.flatten

/-- Writes some bytes. -/
def write (o : Outlet) (b : Bytes) : Outlet × Option Cause :=
  match o.room with
  | none => ({ o with pieces := b :: o.pieces }, none)
  | some r =>
      if b.length ≤ r then
        ({ o with pieces := b :: o.pieces, room := some (r - b.length) }, none)
      else ({ o with pieces := b.take r :: o.pieces, room := some 0 }, some o.full)

/-- Flushes what was written. -/
def flush (o : Outlet) : Outlet × Option Cause :=
  match o.flushes with
  | none => (o, none)
  | some 0 => ({ o with flushes := none }, some flushFailed)
  | some (n + 1) => ({ o with flushes := some n }, none)

/-- Writes some bytes and flushes them.  They may be written in pieces, before they are flushed. -/
def put (o : Outlet) (b : Bytes) : Outlet × Option Cause :=
  match o.write b with
  | (o, some c) => (o, some c)
  | (o, none) => o.flush

/-- The bytes an outlet holds, and the outlet without them. -/
def take (o : Outlet) : Bytes × Outlet := (o.written, { o with pieces := [] })

end Outlet

end IncludeTrace
