import IncludeTrace.FileSystem

/-!
# Directory trees

A directory tree that is kept in memory.  A *location* is the list of names on
the way from the root, and a tree says which locations hold a directory, a file
or a link.  The root is always a directory.

`walk` follows a path through a tree the way an operating system does.  It makes
one move after the other and needs a directory for each of them: `..` goes to the
directory above the one reached, whatever the path was spelled with, and the
directory above the root is the root.  A slash at the end of a path asks for a
directory too.  A link is replaced by its text, and the walk goes on from the
directory of the link, or from the root if the text is an absolute path.  A walk
that meets more than `maxLinks` links gives up.

`fileSystem` turns a tree and a working directory into a file system.  A file
delivers its bytes.  A directory can be opened, and then fails to be read.
-/

namespace IncludeTrace

/-- The names on the way from the root. -/
abbrev Location := List Bytes

/-- What a location holds. -/
inductive Entry where
  /-- A directory. -/
  | directory
  /-- A file with its bytes. -/
  | file (contents : Bytes)
  /-- A link with its text. -/
  | link (target : Bytes)
deriving DecidableEq

/-- One step of a walk. -/
inductive Move where
  /-- Remain in the directory. -/
  | stay
  /-- Go to the directory above. -/
  | up
  /-- Go to an entry of the directory. -/
  | down (name : Bytes)
deriving DecidableEq

namespace Move

/-- The move a segment of a path asks for. -/
def ofSegment? (s : Bytes) : Option Move :=
  if s = [] then none
  else if s = Component.dot then some .stay
  else if s = Component.dots then some .up
  else some (.down s)

/-- The moves a path asks for. -/
def ofPath (p : Path) : List Move :=
  p.segments.filterMap ofSegment? ++ if p.bytes.getLast? = some Path.slash then [.stay] else []

end Move

/-- A directory tree. -/
structure Tree where
  /-- The locations that hold something, newest first. -/
  entries : List (Location × Entry)
deriving DecidableEq

namespace Tree

/-- The tree that is only a root. -/
def empty : Tree := ⟨[]⟩

/-- What a location holds. -/
def entry? (t : Tree) (l : Location) : Option Entry :=
  match l with
  | [] => some .directory
  | _ => t.entries.lookup l

/-- Puts an entry at a location. -/
def put (t : Tree) (l : Location) (e : Entry) : Tree := ⟨(l, e) :: t.entries⟩

/-- The longest name an entry can have. -/
def maxName : Nat := 255

/-- The number of links a walk can follow. -/
def maxLinks : Nat := 40

/-- The length from which on a path is too long to be opened. -/
def pathLimit : Nat := 4096

/-- Where a path starts for someone who works in the directory `cwd`. -/
def base (cwd : Location) (p : Path) : Location := if p.isAbsolute then [] else cwd

/-- The location some moves lead to from `l`, over at most `links` links. -/
def walk (t : Tree) (links : Nat) (l : Location) : List Move → Except Cause Location
  | [] => .ok l
  | m :: ms =>
      match t.entry? l with
      | none => .error .notFound
      | some (.file _) | some (.link _) => .error .notDirectory
      | some .directory =>
          match m with
          | .stay => walk t links l ms
          | .up => walk t links l.dropLast ms
          | .down n =>
              if maxName < n.length then .error .nameTooLong
              else
                match t.entry? (l ++ [n]) with
                | none => .error .notFound
                | some (.link target) =>
                    match links with
                    | 0 => .error .tooManyLinks
                    | links + 1 => walk t links (base l ⟨target⟩) (Move.ofPath ⟨target⟩ ++ ms)
                | some _ => walk t links (l ++ [n]) ms
termination_by ms => (links, ms.length)

/-- The location of a path for someone who works in `cwd`. -/
def locate (t : Tree) (cwd : Location) (p : Path) : Except Cause Location :=
  t.walk maxLinks (base cwd p) (Move.ofPath p)

/-- What opening a path gives. -/
def read (t : Tree) (cwd : Location) (p : Path) : Except Cause (List Delivery) :=
  if p.bytes.contains 0 then .error .zeroByte
  else if p.bytes = [] then .error .notFound
  else if pathLimit ≤ p.bytes.length then .error .nameTooLong
  else
    match t.locate cwd p with
    | .error c => .error c
    | .ok l =>
        match t.entry? l with
        | some (.file contents) => .ok [.bytes contents]
        | some .directory => .ok [.fault .isDirectory]
        | some (.link _) | none => .error .notFound

/-- The tree as a file system, for someone who works in the directory `cwd`. -/
def fileSystem (t : Tree) (cwd : Location) : FileSystem := t.read cwd

/-! ## Building trees -/

/-- Makes one move, and a directory if there is nothing to move to. -/
def makeMove (t : Tree) (l : Location) : Move → Tree × Location
  | .stay => (t, l)
  | .up => (t, l.dropLast)
  | .down n =>
      match t.entry? (l ++ [n]) with
      | some _ => (t, l ++ [n])
      | none => (t.put (l ++ [n]) .directory, l ++ [n])

/-- Makes the directories on the way of some moves. -/
def makeWay (t : Tree) (l : Location) (ms : List Move) : Tree × Location :=
  ms.foldl (fun (t, l) m => t.makeMove l m) (t, l)

/-- Makes a directory and the directories above it. -/
def makeDirectory (t : Tree) (cwd : Location) (p : Path) : Tree :=
  (t.makeWay (base cwd p) (Move.ofPath p)).1

/-- Puts an entry at a path and makes the directories above it. -/
def place (t : Tree) (cwd : Location) (p : Path) (e : Entry) : Tree :=
  let ms := Move.ofPath p
  match ms.getLast? with
  | some (.down n) =>
      match t.walk maxLinks (base cwd p) ms.dropLast with
      | .ok l => t.put (l ++ [n]) e
      | .error _ =>
          let (t, l) := t.makeWay (base cwd p) ms.dropLast
          t.put (l ++ [n]) e
  | _ => t

/-- The size of the largest file. -/
def largest (t : Tree) : Nat :=
  (t.entries.map fun
    | (_, .file contents) => contents.length
    | _ => 0).foldl max 0

/-- A number of steps that suffices for every trace through the tree (`exists_trace_of_stepBound`).
At most `256 ^ pathLimit` paths are short enough to be opened, each is opened at most once, and an
opened file costs a step for each of its directives and one to be closed. -/
def stepBound (t : Tree) : Nat := Nat.pow 256 pathLimit * (t.largest + 1) + 1

end Tree

end IncludeTrace
