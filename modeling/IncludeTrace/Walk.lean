import IncludeTrace.FileSystem
import IncludeTrace.Path.Normal
import IncludeTrace.Sink

/-!
# The walk

A trace goes depth first through the files that quoted directives lead to.  The
walk keeps a stack of the files it is in.  Each of them was read and scanned when
it was entered, so only its directives are kept, and no file is open for longer
than its scan.

A step looks at the file on top.  If it has a directive left, the directive is
reported, and a quoted target is entered unless it is too deep.  If it has none
left, the file is closed, after the failure that ended its scan early, if there
was one.

To *enter* a path is to report it and, unless its normal form is among the
visited paths, to open it.  The path is opened as it stands; only the set of
visited paths uses the normal form.  A path that is entered again is reported and
nothing more, which is what ends the walk on files that include each other.

An event counts in the totals before the sink is asked.  A sink that refuses it
ends the walk there: the path of a refused `enter` is not visited.

A walk need not end on a file system where ever new paths can be opened, so `run`
takes a number of steps and gives no result if they do not suffice.
-/

namespace IncludeTrace

/-- A file the walk is in. -/
structure OpenFile where
  /-- The path it was opened by. -/
  path : Path
  /-- The directives that are left. -/
  pending : List Located
  /-- Why the scan ended early, if it did. -/
  fault : Option Cause
  /-- The number of files above it. -/
  depth : Nat
deriving DecidableEq

/-- The state of a trace.  `σ` is what the sink remembers. -/
structure Walk (σ : Type) where
  /-- What the sink remembers. -/
  sink : σ
  /-- The normal forms of the paths entered, by this trace or before it. -/
  visited : Visited
  /-- The totals so far. -/
  tally : Tally
  /-- The files the walk is in, the deepest first. -/
  stack : List OpenFile

/-- What a trace works with. -/
structure Walk.Context (σ : Type) where
  /-- The files. -/
  files : FileSystem
  /-- Where events and notes go. -/
  sink : Sink σ
  /-- The depth of the deepest files to open, if there is a limit. -/
  maxDepth : Option Nat

/-- A state of a trace, or the state in which an event was refused and why. -/
abbrev Walk.Result (σ : Type) := Except (Walk σ × Cause) (Walk σ)

namespace Walk

variable {σ : Type}

/-- Makes a note. -/
def note (c : Context σ) (n : Note) (w : Walk σ) : Walk σ := { w with sink := c.sink.note w.sink n }

/-- Reports an event. -/
def send (c : Context σ) (e : Event) (w : Walk σ) : Result σ :=
  match c.sink.accept w.sink e with
  | (s, none) => .ok { w with sink := s, tally := w.tally.count e }
  | (s, some cause) => .error ({ w with sink := s, tally := w.tally.count e }, cause)

/-- Opens a path that was not visited before and puts the file on the stack. -/
def openPath (c : Context σ) (p : Path) (depth : Nat) (w : Walk σ) : Result σ :=
  match c.files p with
  | .error cause => (w.note c (.cannotOpen p cause)).send c (.failed p .opening cause)
  | .ok deliveries =>
      let s := Scan.ofDeliveries deliveries
      let w := { w with
        tally := w.tally.opened depth
        stack := ⟨p, s.directives, s.fault, depth⟩ :: w.stack }
      .ok (w.note c (.scanned p s))

/-- Enters a path. -/
def enter (c : Context σ) (p : Path) (depth : Nat) (w : Walk σ) : Result σ :=
  match w.send c (.enter p) with
  | .error stop => .error stop
  | .ok w =>
      match w.visited.containsThenInsert p.normalize with
      | (true, _) =>
          let w := { w with tally := w.tally.duplicate }
          .ok (w.note c (.alreadyVisited p))
      | (false, visited) => { w with visited := visited }.openPath c p depth

/-- Whether the targets of a file at a depth are too deep. -/
def Context.tooDeep (c : Context σ) (depth : Nat) : Bool := c.maxDepth.any (· ≤ depth)

/-- Goes on to a target of a file at a depth. -/
def follow (c : Context σ) (child : Path) (depth : Nat) (w : Walk σ) : Result σ :=
  if c.tooDeep depth then
    let w := { w with tally := w.tally.limited }
    .ok (w.note c (.depthLimit child))
  else w.enter c child (depth + 1)

/-- Deals with a directive of the file `f`, which is no longer among its pending ones. -/
def report (c : Context σ) (f : OpenFile) (d : Located) (w : Walk σ) : Result σ :=
  match w.send c (.found f.path d) with
  | .error stop => .error stop
  | .ok w =>
      if d.directive.isFollowed then
        w.follow c (f.path.resolve d.directive.target) f.depth
      else .ok w

/-- Closes a file that was taken off the stack. -/
def leave (c : Context σ) (f : OpenFile) (w : Walk σ) : Result σ :=
  match f.fault with
  | none => w.send c (.close f.path)
  | some cause =>
      match w.send c (.failed f.path .reading cause) with
      | .error stop => .error stop
      | .ok w => w.send c (.close f.path)

/-- One step.  There is none once the stack is empty. -/
def step (c : Context σ) (w : Walk σ) : Result σ :=
  match w.stack with
  | [] => .ok w
  | f :: rest =>
      match f.pending with
      | [] => { w with stack := rest }.leave c f
      | d :: ds => { w with stack := { f with pending := ds } :: rest }.report c f d

/-- At most `fuel` looks at the stack, until it is empty or an event is refused. -/
def run (c : Context σ) : Nat → Walk σ → Option (Result σ)
  | 0, _ => none
  | fuel + 1, w =>
      match w.stack with
      | [] => some (.ok w)
      | _ :: _ =>
          match w.step c with
          | .error stop => some (.error stop)
          | .ok w => run c fuel w

/-- The state before anything is reported. -/
def init (visited : Visited) (s : σ) : Walk σ := ⟨s, visited, {}, []⟩

/-- The state in which a trace of `root` has entered it. -/
def start (c : Context σ) (root : Path) (visited : Visited) (s : σ) : Result σ :=
  ((init visited s).note c (.traceStarts root)).enter c root 0

/-- The note at the end of a trace. -/
def finish (c : Context σ) (w : Walk σ) : Walk σ := w.note c (.traceComplete w.tally)

/-- The trace of `root`, with the paths visited before it.  No result if the steps do not
suffice. -/
def trace (c : Context σ) (fuel : Nat) (root : Path) (visited : Visited) (s : σ) :
    Option (Result σ) :=
  match start c root visited s with
  | .error stop => some (.error stop)
  | .ok w => (run c fuel w).map fun r => r.map (finish c)

/-- The path the next step opens, if it opens one and no event is refused.  A step asks the file
system about no other path (`step_congr`). -/
def wanted? (c : Context σ) (w : Walk σ) : Option Path :=
  match w.stack with
  | ⟨path, d :: _, _, depth⟩ :: _ =>
      let child := path.resolve d.directive.target
      if d.directive.isFollowed && !c.tooDeep depth && !w.visited.contains child.normalize then
        some child
      else none
  | _ => none

end Walk

end IncludeTrace
