import IncludeTrace.Text.Utf8

/-!
# Paths

A path is a string of bytes.  Slashes divide it into segments, and the segments
that matter are its *components*.

* A path that begins with a slash is absolute, and its first component is the
  root.
* A segment `.` at the very front of a path that is not absolute is the
  component `here`.  Everywhere else `.` says nothing, and neither does an empty
  segment.
* A segment `..` is the component `up`.
* Every other segment is a name.

Two spellings with the same components are the same path to `parent?` and to
everything built on `components`; `join` works on the bytes.
-/

namespace IncludeTrace

/-- A path, as the bytes it is spelled with. -/
structure Path where
  /-- The spelling. -/
  bytes : Bytes
deriving DecidableEq

/-- One step of a path. -/
inductive Component where
  /-- The root directory. -/
  | root
  /-- The directory the path starts from. -/
  | here
  /-- The directory above. -/
  | up
  /-- An entry of the directory reached so far. -/
  | name (n : Bytes)
deriving DecidableEq

namespace Component

/-- The spelling of `here`. -/
def dot : Bytes := [0x2E]

/-- The spelling of `up`. -/
def dots : Bytes := [0x2E, 0x2E]

/-- The component a segment stands for, if it stands for one. -/
def ofSegment? (s : Bytes) : Option Component :=
  if s = [] ∨ s = dot then none else if s = dots then some .up else some (.name s)

/-- The segment a component is spelled with.  The root is the empty segment before a slash. -/
def segment : Component → Bytes
  | .root => []
  | .here => dot
  | .up => dots
  | .name n => n

end Component

namespace Path

/-- The byte between two segments. -/
def slash : UInt8 := 0x2F

/-- The path without components. -/
def empty : Path := ⟨[]⟩

/-- The path that is spelled like a text. -/
def ofText (t : Text) : Path := ⟨Utf8.encode t⟩

/-- A path as it is shown, with a mark for what is not UTF-8. -/
def display (p : Path) : Text := Utf8.decode p.bytes

/-- Whether the path begins at the root. -/
def isAbsolute (p : Path) : Bool := p.bytes.head? == some slash

/-- What lies between the slashes. -/
def segments (p : Path) : List Bytes := p.bytes.splitOn slash

/-- The components of a path. -/
def components (p : Path) : List Component :=
  let tail := p.segments.filterMap Component.ofSegment?
  if p.isAbsolute then .root :: tail
  else if p.segments.head? = some Component.dot then .here :: tail
  else tail

/-- The plain spelling of some components. -/
def ofComponents : List Component → Path
  | .root :: cs => ⟨slash :: [slash].intercalate (cs.map Component.segment)⟩
  | cs => ⟨[slash].intercalate (cs.map Component.segment)⟩

/-- The path without its last component.  The root and the empty path have none. -/
def parent? (p : Path) : Option Path :=
  match p.components.getLast? with
  | none | some .root => none
  | some _ => some (ofComponents p.components.dropLast)

/-- The path `q` as seen from the directory `p`.  An absolute `q` stands for itself. -/
def join (p q : Path) : Path :=
  if q.isAbsolute then q
  else if p.bytes = [] ∨ p.bytes.getLast? = some slash then ⟨p.bytes ++ q.bytes⟩
  else ⟨p.bytes ++ slash :: q.bytes⟩

end Path

end IncludeTrace
