import IncludeTrace.Command.Usage
import IncludeTrace.Path.Basic
import IncludeTrace.Report.Format

/-!
# Reading a command line

A command line is read from left to right into a `Draft`, and the first thing that
is wrong ends the reading.

A value that stands apart from its argument is kept back.  It is *settled*, which
means checked and put into its slot, when the next known argument or the file to
trace is met, or at the end.  Something unknown is reported before a value that is
kept back.  When a value is settled its absence counts first, then a second use of
the argument, then what is wrong with the value.  An attached value is settled at
once.

Behind `--` everything is taken as it is.  Elsewhere what begins with a dash is an
argument, except a dash alone, and it is never the value of the one before it.
-/

namespace IncludeTrace

/-- What a run is asked to do. -/
structure Settings where
  /-- The file to trace. -/
  file : Path
  /-- The format of the output. -/
  format : Format
  /-- The depth of the deepest files to open, if there is a limit. -/
  maxDepth : Option Nat
  /-- Whether the totals are reported. -/
  summary : Bool
  /-- How often more notes are asked for, up to 255 times. -/
  verbose : Nat
deriving DecidableEq

/-- What is known in the middle of a command line. -/
structure Draft where
  /-- The file to trace. -/
  file : Option Path := none
  /-- The format. -/
  format : Option Format := none
  /-- The depth limit. -/
  maxDepth : Option Nat := none
  /-- Whether the totals are reported. -/
  summary : Bool := false
  /-- How often more notes are asked for. -/
  verbose : Nat := 0
  /-- An argument that is not settled, with its value once that was met. -/
  pending : Option (Slot × Option Bytes) := none
  /-- Whether a file was met. -/
  fileMet : Bool := false
  /-- Whether `--` was met. -/
  literal : Bool := false
deriving DecidableEq

namespace Draft

/-- Checks a value and puts it into its slot. -/
def fill (d : Draft) (slot : Slot) (value : Bytes) : Except Usage Draft :=
  match slot with
  | .file =>
      if value = [] then .error (.missingValue .file) else .ok { d with file := some ⟨value⟩ }
  | .format =>
      if d.format.isSome then .error (.repeated (.slot .format))
      else if value = [] then .error (.missingValue .format)
      else
        match (Utf8.decode? value).bind Format.ofName? with
        | some f => .ok { d with format := some f }
        | none => .error (.unknownFormat (Utf8.decode value))
  | .maxDepth =>
      if d.maxDepth.isSome then .error (.repeated (.slot .maxDepth))
      else
        match Utf8.decode? value with
        | none => .error .undecodable
        | some t =>
            match Decimal.read Decimal.wordBound t with
            | .ok n => .ok { d with maxDepth := some n }
            | .error f => .error (.badNumber t f)

/-- Settles the argument that is kept back. -/
def settle (d : Draft) : Except Usage Draft :=
  match d.pending with
  | none => .ok d
  | some (slot, none) => .error (.missingValue slot)
  | some (slot, some value) => { d with pending := none }.fill slot value

/-- Turns a switch. -/
def turn (d : Draft) : Switch → Except Usage Draft
  | .summary =>
      if d.summary then .error (.repeated (.switch .summary)) else .ok { d with summary := true }
  | .verbose => .ok { d with verbose := min 255 (d.verbose + 1) }
  | .help => .error .help
  | .version => .error .version

/-- Meets an argument that takes a value. -/
def openSlot (d : Draft) (slot : Slot) (attached : Option Bytes) : Except Usage Draft :=
  match d.settle with
  | .error u => .error u
  | .ok d =>
      match attached with
      | some value => d.fill slot value
      | none => .ok { d with pending := some (slot, none) }

/-- Meets an argument that takes no value. -/
def settleAndTurn (d : Draft) (s : Switch) : Except Usage Draft :=
  match d.settle with
  | .error u => .error u
  | .ok d => d.turn s

/-- Meets a long name, perhaps with a value attached. -/
def meetLong (d : Draft) (name : Bytes) (attached : Option Bytes) : Except Usage Draft :=
  match (Utf8.decode? name).bind Argument.ofLong? with
  | none => .error (.unknown ('-' :: '-' :: Utf8.decode name))
  | some (.slot s) => d.openSlot s attached
  | some (.switch s) =>
      match attached with
      | some value => .error (.surplusValue (Utf8.decode value) s)
      | none => d.settleAndTurn s

/-- The value attached to a short name: what follows it, without one `=`. -/
def attachedTo : Bytes → Option Bytes
  | [] => none
  | b :: bs => some (if b = 0x3D then bs else b :: bs)

/-- Meets short names behind one dash.  `rest` follows them and is not text. -/
def meetShort (rest : Bytes) (d : Draft) : Text → Except Usage Draft
  | [] => if rest = [] then .ok d else .error (.unknown ('-' :: Utf8.decode rest))
  | c :: cs =>
      match Argument.ofShort? c with
      | none => .error (.unknown ['-', c])
      | some (.slot s) => d.openSlot s (attachedTo (Utf8.encode cs ++ rest))
      | some (.switch s) =>
          match d.settleAndTurn s with
          | .error u => .error u
          | .ok d => meetShort rest d cs

/-- Meets something without a name. -/
def meetFile (d : Draft) (arg : Bytes) : Except Usage Draft :=
  if d.fileMet then .error (.unknown (Utf8.decode arg))
  else
    match d.settle with
    | .error u => .error u
    | .ok d => .ok { d with pending := some (.file, some arg), fileMet := true }

/-- Meets something that begins with two dashes. -/
def meetDashes (d : Draft) (arg : Bytes) : Except Usage Draft :=
  let name := arg.takeWhile (· != 0x3D)
  match arg.dropWhile (· != 0x3D) with
  | [] => d.meetLong name none
  | _ :: value => d.meetLong name (some value)

/-- Meets the next word of the command line. -/
def meet (d : Draft) (arg : Bytes) : Except Usage Draft :=
  if d.literal then d.meetFile arg
  else
    match arg with
    | [0x2D, 0x2D] => .ok { d with literal := true }
    | 0x2D :: 0x2D :: rest => d.meetDashes rest
    | 0x2D :: b :: bs =>
        let (names, rest) := Utf8.span (b :: bs)
        d.meetShort rest names
    | _ =>
        match d.pending with
        | some (slot, none) => .ok { d with pending := some (slot, some arg) }
        | _ => d.meetFile arg

/-- The settings at the end of the command line. -/
def finish (d : Draft) : Except Usage Settings :=
  match d.settle with
  | .error u => .error u
  | .ok d =>
      match d.file with
      | none => .error .noFile
      | some file => .ok ⟨file, d.format.getD .text, d.maxDepth, d.summary, d.verbose⟩

/-- Meets the words of a command line one after the other. -/
def meetAll (d : Draft) : List Bytes → Except Usage Draft
  | [] => .ok d
  | arg :: args =>
      match d.meet arg with
      | .error u => .error u
      | .ok d => d.meetAll args

end Draft

/-- The settings a command line asks for. -/
def Settings.ofArguments (args : List Bytes) : Except Usage Settings :=
  match ({} : Draft).meetAll args with
  | .error u => .error u
  | .ok d => d.finish

end IncludeTrace
