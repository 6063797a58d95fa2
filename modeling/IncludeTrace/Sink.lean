import IncludeTrace.Note.Basic

/-!
# Sinks

The events and notes of a trace go to a *sink*.  A sink may refuse an event, and
then the trace is over.  It takes every note.

A `Journal` is the sink that keeps what it is given.  It can be set up to refuse
the event that follows a number of accepted ones.
-/

namespace IncludeTrace

/-- Where events and notes go.  `σ` is what the sink remembers. -/
structure Sink (σ : Type) where
  /-- Takes an event, or says why it is refused. -/
  accept : σ → Event → σ × Option Cause
  /-- Takes a note. -/
  note : σ → Note → σ

/-- The message of a trace that ended because an event was refused. -/
def Sink.refusalMessage (c : Cause) : Text := "failed to emit trace event: ".toList ++ c.text

/-- Everything a sink was given, oldest first. -/
structure Journal where
  /-- The events that were accepted. -/
  events : List Event
  /-- The notes. -/
  notes : List Note
  /-- The number of events to accept before one is refused, if one is to be. -/
  acceptable : Option Nat
deriving DecidableEq

namespace Journal

/-- The empty journal. -/
def empty (acceptable : Option Nat) : Journal := ⟨[], [], acceptable⟩

/-- The failure of a journal that refuses. -/
def closed : Cause := .custom "sink closed".toList

/-- Keeps an event, or refuses it. -/
def accept (j : Journal) (e : Event) : Journal × Option Cause :=
  match j.acceptable with
  | none => ({ j with events := j.events ++ [e] }, none)
  | some 0 => ({ j with acceptable := none }, some closed)
  | some (n + 1) => ({ j with events := j.events ++ [e], acceptable := some n }, none)

/-- Keeps a note. -/
def note (j : Journal) (n : Note) : Journal := { j with notes := j.notes ++ [n] }

/-- Journals as sinks. -/
def sink : Sink Journal := ⟨accept, note⟩

end Journal

end IncludeTrace
