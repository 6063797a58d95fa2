import IncludeTrace.Command.Run

/-!
# The program

The outer layer: it hands the command line and the environment to the library,
reads the files a trace asks for, and prints what the console holds after each
step.  A step asks for at most one path, which `Walk.wanted?` names beforehand, so
the file is read first and the step is made with it (`Walk.step_congr`).  A file is
read in portions, so what was read before a failure is kept.
-/

namespace IncludeTrace

namespace Program

/-- Why the system refused something. -/
def cause (e : IO.Error) : Cause :=
  match e with
  | .alreadyExists _ code _ | .otherError code _ | .resourceBusy code _ | .resourceVanished code _
  | .unsupportedOperation code _ | .hardwareFault code _ | .unsatisfiedConstraints code _
  | .illegalOperation code _ | .protocolError code _ | .timeExpired code _
  | .interrupted _ code _ | .noFileOrDirectory _ code _ | .invalidArgument _ code _
  | .permissionDenied _ code _ | .resourceExhausted _ code _ | .inappropriateType _ code _
  | .noSuchThing _ code _ => .system code.toNat
  | .unexpectedEof => .custom "unexpected end of file".toList
  | .userError text => .custom text.toList

/-- Runs an action and keeps why it failed. -/
def attempt {α : Type} (action : IO α) : IO (Except Cause α) := do
  try
    return .ok (← action)
  catch e =>
    return .error (cause e)

/-- One read of a file. -/
def deliver (handle : IO.FS.Handle) : IO Delivery := do
  try
    return .bytes (← handle.read LineStream.capacity.toUSize).toList
  catch
    | .interrupted _ _ _ => return .interrupted
    | e => return .fault (cause e)

/-- Reads a file to its end or to the first read that fails.  The deliveries before are `ds`,
newest first. -/
partial def readOn (handle : IO.FS.Handle) (ds : List Delivery) : IO (List Delivery) := do
  match ← deliver handle with
  | .bytes [] => return ds.reverse
  | .fault c => return (.fault c :: ds).reverse
  | d => readOn handle (d :: ds)

/-- Opens and reads a file.  A failure to read it comes behind the bytes read before. -/
def read (p : Path) : IO (Except Cause (List Delivery)) := do
  if p.bytes.contains 0 then
    return .error .zeroByte
  match ← attempt (IO.FS.Handle.mk (String.ofList p.display) .read) with
  | .error c => return .error c
  | .ok handle => return .ok (← readOn handle [])

/-- Prints some bytes. -/
def print (stream : IO.FS.Stream) (b : Bytes) : IO (Except Cause Unit) :=
  if b.isEmpty then return .ok ()
  else attempt do
    stream.write ⟨b.toArray⟩
    stream.flush

/-- Prints what a console holds, messages first. -/
def present (c : Console) : IO (Console × Except Cause Unit) := do
  let (messages, err) := c.err.take
  let (events, out) := c.out.take
  let said ← print (← IO.getStderr) messages
  let shown ← print (← IO.getStdout) events
  return ({ c with out := out, err := err }, said >>= fun _ => shown)

/-- Ends the program. -/
def exit (e : Command.Ending) : IO UInt32 := do
  let _ ← present e.explain.console
  return e.exit.code.toUInt32

/-- Goes on with a trace after a step. -/
partial def proceed (s : Settings) (result : Walk.Result Console) : IO UInt32 := do
  match result with
  | .error stop => exit (Command.abort s stop)
  | .ok w =>
      match ← present w.sink with
      | (console, .error c) => exit (Command.abort s (⟨console, w.visited, w.tally, []⟩, c))
      | (console, .ok ()) =>
          let w := { w with sink := console }
          let idle := Command.context (fun _ => .error .notFound) s
          if w.stack.isEmpty then
            exit (Command.conclude s (w.finish idle))
          else
            match w.wanted? idle with
            | none => proceed s (w.step idle)
            | some p =>
                let opened ← read p
                proceed s (w.step (Command.context (fun _ => opened) s))

/-- Runs with some settings. -/
def run (s : Settings) : IO UInt32 := do
  let wish ← IO.getEnv "RUST_LOG"
  let console := Command.console s (wish.map String.toList) .unlimited .unlimited
  let (console, shown) ← present console.writeHeader.1
  match shown with
  | .error c => exit ⟨console, .error (.header c)⟩
  | .ok () =>
      let opened ← read s.file
      proceed s (Walk.start (Command.context (fun _ => opened) s) s.file .empty console)

/-- Prints what a command line gets that does not lead to a run. -/
def decline (u : Usage) : IO UInt32 := do
  let d := Command.decline u .unlimited .unlimited
  let _ ← print (← IO.getStdout) d.out.written
  let _ ← print (← IO.getStderr) d.err.written
  return (Exit.ofUsage u).code.toUInt32

end Program

end IncludeTrace

/-- The program. -/
def main (args : List String) : IO UInt32 :=
  match IncludeTrace.Settings.ofArguments (args.map fun a => IncludeTrace.Utf8.encode a.toList) with
  | .error u => IncludeTrace.Program.decline u
  | .ok s => IncludeTrace.Program.run s
