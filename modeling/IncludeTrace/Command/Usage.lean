import IncludeTrace.Text.Decimal
import IncludeTrace.Text.Terminal

/-!
# Arguments and how they are misused

A command line has arguments that take a value (`Slot`) and arguments that do not
(`Switch`).  `Usage` lists why a command line does not lead to a run: help or the
version is asked for, or something is wrong with it.

A message shows of an argument that is at fault what a terminal would show of it, and
ends with its first line.
-/

namespace IncludeTrace

/-- An argument that takes a value. -/
inductive Slot where
  /-- The file to trace, which has no name on the command line. -/
  | file
  /-- The format of the output. -/
  | format
  /-- The depth limit. -/
  | maxDepth
deriving DecidableEq

/-- An argument that takes no value. -/
inductive Switch where
  /-- Reports the totals. -/
  | summary
  /-- Shows more notes. -/
  | verbose
  /-- Shows the help. -/
  | help
  /-- Shows the version. -/
  | version
deriving DecidableEq

/-- An argument. -/
inductive Argument where
  /-- One with a value. -/
  | slot (s : Slot)
  /-- One without. -/
  | switch (s : Switch)
deriving DecidableEq

/-- How messages refer to an argument with a value. -/
def Slot.label : Slot → Text
  | .file => "<FILE>".toList
  | .format => "--format <FORMAT>".toList
  | .maxDepth => "--max-depth <N>".toList

/-- How messages refer to an argument without a value. -/
def Switch.label : Switch → Text
  | .summary => "--summary".toList
  | .verbose => "--verbose...".toList
  | .help => "--help".toList
  | .version => "--version".toList

namespace Argument

/-- How messages refer to an argument. -/
def label : Argument → Text
  | .slot s => s.label
  | .switch s => s.label

/-- The argument with a long name. -/
def ofLong? (t : Text) : Option Argument :=
  if t = "format".toList then some (.slot .format)
  else if t = "max-depth".toList then some (.slot .maxDepth)
  else if t = "summary".toList then some (.switch .summary)
  else if t = "verbose".toList then some (.switch .verbose)
  else if t = "help".toList then some (.switch .help)
  else if t = "version".toList then some (.switch .version)
  else none

/-- The argument with a short name. -/
def ofShort? (c : Char) : Option Argument :=
  if c = 'f' then some (.slot .format)
  else if c = 'v' then some (.switch .verbose)
  else if c = 'h' then some (.switch .help)
  else if c = 'V' then some (.switch .version)
  else none

end Argument

/-- Why a command line does not lead to a run. -/
inductive Usage where
  /-- Help is asked for. -/
  | help
  /-- The version is asked for. -/
  | version
  /-- There is no such argument, or no room for it. -/
  | unknown (argument : Text)
  /-- An argument is without its value. -/
  | missingValue (slot : Slot)
  /-- There is no such format. -/
  | unknownFormat (value : Text)
  /-- A depth limit is not a number. -/
  | badNumber (value : Text) (fault : Decimal.Fault)
  /-- A depth limit is not even text. -/
  | undecodable
  /-- An argument is given twice. -/
  | repeated (argument : Argument)
  /-- An argument has a value and takes none. -/
  | surplusValue (value : Text) (switch : Switch)
  /-- There is no file to trace. -/
  | noFile
deriving DecidableEq

namespace Usage

/-- The name and the version of the program. -/
def programVersion : Text := "includesleuth 0.1.0".toList

/-- What a terminal shows of a text, in single quotes. -/
def quoted (t : Text) : Text := "'".toList ++ Terminal.plain t ++ "'".toList

/-- What is wrong, in words. -/
def wording : Usage → Text
  | .help => []
  | .version => programVersion
  | .unknown a => "error: unexpected argument ".toList ++ quoted a ++ " found".toList
  | .missingValue s =>
      "error: a value is required for ".toList ++ quoted s.label
        ++ " but none was supplied".toList
  | .unknownFormat v =>
      "error: invalid value ".toList ++ quoted v ++ " for ".toList ++ quoted Slot.format.label
  | .badNumber v f =>
      "error: invalid value ".toList ++ quoted v ++ " for ".toList ++ quoted Slot.maxDepth.label
        ++ ": ".toList ++ f.text
  | .undecodable => "error: invalid UTF-8 was detected in one or more arguments".toList
  | .repeated a =>
      "error: the argument ".toList ++ quoted a.label ++ " cannot be used multiple times".toList
  | .surplusValue v s =>
      "error: unexpected value ".toList ++ quoted v ++ " for ".toList ++ quoted s.label
        ++ " found; no more were expected".toList
  | .noFile => "error: the following required arguments were not provided:".toList

/-- The first line of a text, without a carriage return at its end. -/
def firstLine (t : Text) : Text :=
  let line := t.takeWhile (· != '\n')
  if line.length < t.length && line.getLast? == some '\r' then line.dropLast else line

/-- The message about a command line. -/
def message (u : Usage) : Text := firstLine u.wording

/-- Whether something is wrong with the command line. -/
def isError : Usage → Bool
  | .help | .version => false
  | _ => true

end Usage

end IncludeTrace
